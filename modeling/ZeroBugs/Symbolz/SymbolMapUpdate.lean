import ZeroBugs.Symbolz.SymbolMap

/-! # The map follows the list -/
namespace ZeroBugs.Symbolz.SymbolMap
open SymbolMapImpl List

def SymbolMapImpl.addrOf (s : SymbolMapImpl) (f : Files) (e : LinkData) : UInt64 :=
  if e.filename = [] then s.getLoadAddr f else f.libraryAddr e

def LinkData.IsAt (e : LinkData) (f : Files) (a : UInt64) : Prop :=
  e.filename ≠ [] ∧ f.libraryAddr e = a
  deriving Decidable

def lastPath (f : Files) (l : List LinkData) (a : UInt64) : Option Text :=
  (l.reverse.find? fun e => e.IsAt f a).map fun e => f.path e.filename

structure Follows (f : Files) (s : SymbolMapImpl) (l : List LinkData) : Prop where
  addresses : ∀ a, ((s.update f l).map a).isSome ↔ a ∈ l.map (s.addrOf f)
  paths : ∀ a path, lastPath f l a = some path →
    ∃ t, (s.update f l).map a = some t ∧ t.filename = path
  same : ∀ a t, a ∈ l.map (s.addrOf f) → s.map a = some t →
    (∀ path, lastPath f l a = some path → t.filename = path) → (s.update f l).map a = some t
  again : (s.update f l).update f l = s.update f l

structure Consistent (f : Files) (s : SymbolMapImpl) (l : List LinkData) : Prop where
  main : (s.map (s.getLoadAddr f)).isSome ∨ ∃ e ∈ l, e.IsAt f (s.getLoadAddr f)
  distinct : ∀ a, ∀ e ∈ l, ∀ e' ∈ l, e.IsAt f a → e'.IsAt f a →
    f.path e.filename = f.path e'.filename

def SymbolMapImpl.turn (s : SymbolMapImpl) (f : Files) (e : LinkData) : SymbolMapImpl :=
  if e.filename = [] then s.memoLoadAddr f else s.updateLibrary f e

theorem updateOne_eq (f : Files) (p : SymbolMapImpl × List UInt64) (e : LinkData) :
    updateOne f p e = (p.1.turn f e, p.1.addrOf f e :: p.2) := by
  unfold updateOne turn addrOf
  split <;> rfl

theorem getLoadAddr_memo (s : SymbolMapImpl) (f : Files) :
    (s.memoLoadAddr f).getLoadAddr f = s.getLoadAddr f := by
  unfold getLoadAddr memoLoadAddr getLoadAddr
  split <;> simp_all

structure Turned (s s' : SymbolMapImpl) (f : Files) (e : LinkData) : Prop where
  sound : Sound s'
  getLoadAddr : s'.getLoadAddr f = s.getLoadAddr f
  present : ∀ a, e.IsAt f a → ∃ t, s'.map a = some t ∧ t.filename = f.path e.filename
  kept : ∀ a t, s.map a = some t → (e.IsAt f a → f.path e.filename = t.filename) →
    s'.map a = some t
  other : ∀ a, ¬e.IsAt f a → s'.map a = s.map a
  gone : ∀ id, Gone s id → Gone s' id
  replaced : ∀ a t, s.map a = some t → e.IsAt f a → f.path e.filename ≠ t.filename → Gone s' t.id

variable {e : LinkData}

theorem Sound.turned {s : SymbolMapImpl} {f : Files} (h : Sound s)
    (hread : e.filename ≠ [] → f.ReadsAt e) : Turned s (s.turn f e) f e := by
  unfold turn
  split
  · rename_i hmain
    have hnot : ∀ a, ¬e.IsAt f a := fun a hat => hat.1 hmain
    exact {
      sound := h.restrict (fun x t hx => by cases x <;> exact hx) rfl
      getLoadAddr := getLoadAddr_memo s f
      present := fun a hat => absurd hat (hnot a)
      kept := fun _ _ ht _ => ht
      other := fun _ _ => rfl
      gone := fun id hid => hid.restrict (fun x t hx => by cases x <;> exact hx) rfl
      replaced := fun a _ _ hat => absurd hat (hnot a) }
  · rename_i hname
    have hupdated := h.updateLibrary (hread hname)
    have hother : ∀ a, ¬e.IsAt f a → (s.updateLibrary f e).map a = s.map a :=
      fun a hat => hupdated.other a fun heq => hat ⟨hname, heq.symm⟩
    refine ⟨hupdated.sound, ?_, ?_, ?_, hother, hupdated.gone, ?_⟩
    · unfold SymbolMapImpl.getLoadAddr
      rw [hupdated.loadAddr]
    · rintro a ⟨-, rfl⟩
      exact hupdated.inMap
    · intro a t ht hpath
      by_cases hat : e.IsAt f a
      · obtain ⟨-, rfl⟩ := hat
        rw [updateLibrary_of_inMap ⟨t, ht, (hpath ⟨hname, rfl⟩).symm⟩]
        exact ht
      · rw [hother a hat, ht]
    · rintro a t ht ⟨-, rfl⟩ hpath
      exact hupdated.replaced t ht hpath.symm

variable {a : UInt64} {path : Text}

section Loop

variable {s : SymbolMapImpl} {f : Files} {l : List LinkData}

def SymbolMapImpl.turns (s : SymbolMapImpl) (f : Files) (l : List LinkData) : SymbolMapImpl :=
  l.foldl (fun s e => s.turn f e) s

theorem lastPath_cons (e : LinkData) (a : UInt64) :
    lastPath f (e :: l) a =
      (lastPath f l a).or (if e.IsAt f a then some (f.path e.filename) else none) := by
  unfold lastPath
  rw [reverse_cons, find?_append, Option.map_or]
  congr 1
  by_cases hat : e.IsAt f a <;> simp [hat]

theorem mem_tmp_iff (h : Sound s) (hread : ∀ e ∈ l, e.filename ≠ [] → f.ReadsAt e)
    (tmp : List UInt64) (a : UInt64) :
    (l.foldl (updateOne f) (s, tmp)).1 = s.turns f l ∧
      (a ∈ (l.foldl (updateOne f) (s, tmp)).2 ↔ a ∈ tmp ∨ a ∈ l.map (s.addrOf f)) := by
  induction l generalizing s tmp with
  | nil => exact ⟨rfl, by simp⟩
  | cons e l ih =>
    have hturn := h.turned (hread e mem_cons_self)
    have haddr : (s.turn f e).addrOf f = s.addrOf f := by
      funext x
      unfold addrOf
      rw [hturn.getLoadAddr]
    rw [foldl_cons, updateOne_eq]
    obtain ⟨hmap, htmp⟩ := ih hturn.sound (fun x hx => hread x (mem_cons_of_mem e hx))
      (s.addrOf f e :: tmp)
    refine ⟨hmap, htmp.trans ?_⟩
    rw [haddr, mem_cons, map_cons, mem_cons]
    constructor
    · rintro ((hhere | hold) | hrest)
      · exact .inr (.inl hhere)
      · exact .inl hold
      · exact .inr (.inr hrest)
    · rintro (hold | hhere | hrest)
      · exact .inl (.inr hold)
      · exact .inl (.inl hhere)
      · exact .inr hrest

structure LoopSpec (s s' : SymbolMapImpl) (f : Files) (l : List LinkData) : Prop where
  sound : Sound s'
  getLoadAddr : s'.getLoadAddr f = s.getLoadAddr f
  present : ∀ a path, lastPath f l a = some path → ∃ t, s'.map a = some t ∧ t.filename = path
  kept : ∀ a t, s.map a = some t → (∀ e ∈ l, e.IsAt f a → f.path e.filename = t.filename) →
    s'.map a = some t
  other : ∀ a, (∀ e ∈ l, ¬e.IsAt f a) → s'.map a = s.map a
  gone : ∀ id, Gone s id → Gone s' id
  replaced : ∀ a t, s.map a = some t → ∀ e ∈ l, e.IsAt f a → f.path e.filename ≠ t.filename →
    Gone s' t.id

theorem lastPath_eq_none_iff (a : UInt64) : lastPath f l a = none ↔ ∀ e ∈ l, ¬e.IsAt f a := by
  simp [lastPath]

theorem lastPath_eq_some (h : lastPath f l a = some path) :
    ∃ e ∈ l, e.IsAt f a ∧ f.path e.filename = path := by
  obtain ⟨e, hfind, hpath⟩ := Option.map_eq_some_iff.mp h
  refine ⟨e, mem_reverse.mp (mem_of_find?_eq_some hfind), ?_, hpath⟩
  simpa using find?_some hfind

theorem exists_lastPath (he : e ∈ l) (hat : e.IsAt f a) :
    ∃ path, lastPath f l a = some path := by
  cases hlast : lastPath f l a with
  | none => exact absurd hat ((lastPath_eq_none_iff a).mp hlast e he)
  | some path => exact ⟨path, rfl⟩

theorem Sound.turns (h : Sound s) (hread : ∀ e ∈ l, e.filename ≠ [] → f.ReadsAt e) :
    LoopSpec s (s.turns f l) f l := by
  induction l generalizing s with
  | nil => exact ⟨h, rfl, nofun, fun _ _ ht _ => ht, fun _ _ => rfl, fun _ hid => hid, nofun⟩
  | cons e l ih =>
    have hturn := h.turned (hread e mem_cons_self)
    have hrest := ih hturn.sound fun x hx => hread x (mem_cons_of_mem e hx)
    refine ⟨hrest.sound, hrest.getLoadAddr.trans hturn.getLoadAddr, ?_, ?_, ?_, ?_, ?_⟩
    · intro a path hpath
      rw [lastPath_cons] at hpath
      cases hlast : lastPath f l a with
      | some q =>
        rw [hlast, Option.some_or] at hpath
        exact hrest.present a path (hlast.trans hpath)
      | none =>
        -- the entry at hand is the last one
        rw [hlast, Option.none_or] at hpath
        obtain ⟨hat, hpath⟩ := Option.ite_none_right_eq_some.mp hpath
        obtain ⟨t, ht, hname⟩ := hturn.present a hat
        have hsame := hrest.other a ((lastPath_eq_none_iff a).mp hlast)
        exact ⟨t, hsame.trans ht, hname.trans (Option.some.inj hpath)⟩
    · intro a t ht hpath
      refine hrest.kept a t (hturn.kept a t ht (hpath e mem_cons_self)) ?_
      exact fun x hx => hpath x (mem_cons_of_mem e hx)
    · intro a hnot
      have hsame := hrest.other a fun x hx => hnot x (mem_cons_of_mem e hx)
      exact hsame.trans (hturn.other a (hnot e mem_cons_self))
    · exact fun id hid => hrest.gone id (hturn.gone id hid)
    · intro a t ht x hx hat hpath
      by_cases hhere : e.IsAt f a ∧ f.path e.filename ≠ t.filename
      · exact hrest.gone t.id (hturn.replaced a t ht hhere.1 hhere.2)
      · have hkept : (s.turn f e).map a = some t :=
          hturn.kept a t ht fun hat => not_not.mp fun hne => hhere ⟨hat, hne⟩
        rcases mem_cons.mp hx with rfl | hx
        · exact absurd ⟨hat, hpath⟩ hhere
        · exact hrest.replaced a t hkept x hx hat hpath

theorem turns_of_inMap (hmemo : s.memoLoadAddr f = s)
    (hin : ∀ e ∈ l, e.filename ≠ [] → InMap s f e) : s.turns f l = s := by
  induction l with
  | nil => rfl
  | cons e l ih =>
    have hturn : s.turn f e = s := by
      unfold turn
      split
      · exact hmemo
      · rename_i hname
        exact updateLibrary_of_inMap (hin e mem_cons_self hname)
    show (s.turn f e).turns f l = s
    rw [hturn]
    exact ih fun x hx => hin x (mem_cons_of_mem e hx)

end Loop

section Update

variable {s : SymbolMapImpl} {f : Files} {l : List LinkData} (h : Sound s)
  (hread : ∀ e ∈ l, e.filename ≠ [] → f.ReadsAt e)

theorem LinkData.IsAt.mem (hat : e.IsAt f a) (he : e ∈ l) :
    a ∈ l.map (s.addrOf f) :=
  mem_map.mpr ⟨e, he, (if_neg hat.1).trans hat.2⟩

theorem Consistent.lastPath (hc : Consistent f s l) (he : e ∈ l)
    (hat : e.IsAt f a) : lastPath f l a = some (f.path e.filename) := by
  obtain ⟨path, hlast⟩ := exists_lastPath he hat
  obtain ⟨e', he', hat', hpath⟩ := lastPath_eq_some hlast
  rw [hlast, ← hpath, hc.distinct a e' he' e he hat' hat]

include h hread

theorem update_eq :
    s.update f l = { s.turns f l with
      map := fun a => if a ∈ l.map (s.addrOf f) then (s.turns f l).map a else none
      loadAddr := s.getLoadAddr f } := by
  have hloop := mem_tmp_iff h hread []
  have hspec := h.turns hread
  unfold update
  simp only [(hloop 0).1, discardUnused, memoLoadAddr, hspec.getLoadAddr]
  congr 1
  funext a
  have hmem := (hloop a).2
  simp only [not_mem_nil, false_or] at hmem
  exact if_congr hmem rfl rfl

theorem update_map_of_mem (ha : a ∈ l.map (s.addrOf f)) :
    (s.update f l).map a = (s.turns f l).map a := by
  rw [update_eq h hread]
  exact if_pos ha

theorem Sound.update : Sound (s.update f l) := by
  refine (h.turns hread).sound.restrict (fun x t hx => ?_) (by rw [update_eq h hread])
  rw [update_eq h hread] at hx
  cases x with
  | mapped a => exact (Option.ite_none_right_eq_some.mp hx).2
  | needed path => exact hx

theorem getLoadAddr_update : (s.update f l).getLoadAddr f = s.getLoadAddr f := by
  rw [update_eq h hread]
  exact getLoadAddr_memo s f

theorem update_paths (hlast : lastPath f l a = some path) :
    ∃ t, (s.update f l).map a = some t ∧ t.filename = path := by
  obtain ⟨e, he, hat, -⟩ := lastPath_eq_some hlast
  rw [update_map_of_mem h hread (hat.mem he)]
  exact (h.turns hread).present a path hlast

theorem Consistent.addresses (hc : Consistent f s l) (a : UInt64) :
    ((s.update f l).map a).isSome ↔ a ∈ l.map (s.addrOf f) := by
  constructor
  · intro hsome
    rw [update_eq h hread] at hsome
    by_contra hnot
    simp [hnot] at hsome
  · intro ha
    by_cases hlib : ∃ e ∈ l, e.IsAt f a
    · obtain ⟨e, he, hat⟩ := hlib
      obtain ⟨t, ht, -⟩ := update_paths h hread (hc.lastPath he hat)
      rw [ht, Option.isSome_some]
    · -- only the main program is there
      have hnone : ∀ e ∈ l, ¬e.IsAt f a := fun e he hat => hlib ⟨e, he, hat⟩
      obtain ⟨e, he, rfl⟩ := mem_map.mp ha
      have hmain : s.addrOf f e = s.getLoadAddr f :=
        if_pos (not_not.mp fun hname => hnone e he ⟨hname, (if_neg hname).symm⟩)
      rw [update_map_of_mem h hread ha, (h.turns hread).other _ hnone, hmain]
      rw [hmain] at hlib
      exact hc.main.resolve_right hlib

theorem Consistent.again (hc : Consistent f s l) :
    (s.update f l).update f l = s.update f l := by
  have hload := getLoadAddr_update h hread
  have hmemo : (s.update f l).memoLoadAddr f = s.update f l := by
    unfold memoLoadAddr
    rw [hload, update_eq h hread]
  have hturns : (s.update f l).turns f l = s.update f l := by
    refine turns_of_inMap hmemo fun e he hname => ?_
    exact update_paths h hread (hc.lastPath he ⟨hname, rfl⟩)
  have haddr : (s.update f l).addrOf f = s.addrOf f := by
    funext e
    unfold addrOf
    rw [hload]
  rw [update_eq (h.update hread) hread, hturns, haddr]
  have hmap : (fun a => if a ∈ l.map (s.addrOf f) then (s.update f l).map a else none) =
      (s.update f l).map := by
    funext a
    split
    · rfl
    · rename_i ha
      have hnone := mt (hc.addresses h hread a).mp ha
      exact (Option.not_isSome_iff_eq_none.mp hnone).symm
  rw [hmap]
  exact hmemo

theorem Consistent.follows (hc : Consistent f s l) : Follows f s l where
  addresses := hc.addresses h hread
  paths _ _ hlast := update_paths h hread hlast
  same a t ha ht hpath := by
    rw [update_map_of_mem h hread ha]
    refine (h.turns hread).kept a t ht fun e he hat => ?_
    exact (hpath _ (hc.lastPath he hat)).symm
  again := hc.again h hread

theorem Follows.main (hf : Follows f s l) (hmain : ∃ e ∈ l, e.filename = []) :
    (s.map (s.getLoadAddr f)).isSome ∨ ∃ e ∈ l, e.IsAt f (s.getLoadAddr f) := by
  obtain ⟨e, he, hname⟩ := hmain
  have ha : s.getLoadAddr f ∈ l.map (s.addrOf f) := mem_map.mpr ⟨e, he, if_pos hname⟩
  by_cases hlib : ∃ e ∈ l, e.IsAt f (s.getLoadAddr f)
  · exact .inr hlib
  · left
    have hsome := (hf.addresses _).mpr ha
    rwa [update_map_of_mem h hread ha,
      (h.turns hread).other _ fun e he hat => hlib ⟨e, he, hat⟩] at hsome

theorem Follows.path_eq (hf : Follows f s l)
    (hlast : lastPath f l a = some path) (he : e ∈ l) (hat : e.IsAt f a) :
    f.path e.filename = path := by
  by_contra hne
  obtain ⟨t, ht, hname⟩ := hf.paths a path hlast
  have hsound := h.update hread
  have hgone := (hsound.turns hread).replaced a t ht e he hat (hname ▸ hne)
  refine hgone.nowhere (.mapped a) t ?_ rfl
  show ((s.update f l).turns f l).map a = some t
  rw [← update_map_of_mem hsound hread (hat.mem he), hf.again, ht]

theorem Follows.consistent (hf : Follows f s l) (hmain : ∃ e ∈ l, e.filename = []) :
    Consistent f s l := by
  refine ⟨hf.main h hread hmain, fun a e he e' he' hat hat' => ?_⟩
  obtain ⟨path, hlast⟩ := exists_lastPath he hat
  rw [hf.path_eq h hread hlast he hat, hf.path_eq h hread hlast he' hat']

end Update

theorem follows_iff (f : Files) (s : SymbolMapImpl) (l : List LinkData) (h : Sound s)
    (hmain : ∃ e ∈ l, e.filename = []) (hread : ∀ e ∈ l, e.filename ≠ [] → f.ReadsAt e) :
    Follows f s l ↔ Consistent f s l :=
  ⟨fun hf => hf.consistent h hread hmain, fun hc => hc.follows h hread⟩

def plainFiles : Files where
  mapPath _ := none
  canonicalPath name := name
  ensureAbsLibPath path := path
  loadAddr _ := 0
  memSize _ := 0x1000
  tablesLoadAddr _ := 0
  tablesMemSize _ := 0x1000
  pageSize := 0x1000
  programLoadAddr := 0x400000

def programMapped : SymbolMapImpl :=
  SymbolMapImpl.load ⟨fun _ => none, fun _ => none, 0, 0⟩ plainFiles ['p'] 0x400000

theorem sound_programMapped : Sound programMapped := by
  have hempty : Sound ⟨fun _ => none, fun _ => none, 0, 0⟩ :=
    ⟨fun x => by cases x <;> exact nofun, fun x => by cases x <;> exact nofun, nofun⟩
  obtain ⟨u, hload⟩ := hempty.load plainFiles rfl fun _ => rfl
  exact hload.sound hempty

theorem follows_iff_twoLibraries :
    let l : List LinkData := [⟨0, []⟩, ⟨0x7000, ['a']⟩, ⟨0x8000, ['b']⟩]
    Sound programMapped ∧ (∃ e ∈ l, e.filename = []) ∧
      (∀ e ∈ l, e.filename ≠ [] → plainFiles.ReadsAt e) ∧ Follows plainFiles programMapped l := by
  intro l
  have hmain : ∃ e ∈ l, e.filename = [] := ⟨_, mem_cons_self, rfl⟩
  have hread : ∀ e ∈ l, e.filename ≠ [] → plainFiles.ReadsAt e := fun _ _ _ _ => rfl
  refine ⟨sound_programMapped, hmain, hread, ?_⟩
  rw [follows_iff plainFiles programMapped l sound_programMapped hmain hread]
  have hdistinct : ∀ e ∈ l, ∀ e' ∈ l, e.filename ≠ [] ∧ e'.filename ≠ [] →
      plainFiles.libraryAddr e' = plainFiles.libraryAddr e → e.filename = e'.filename := by
    decide
  refine ⟨.inl (by decide), ?_⟩
  rintro a e he e' he' ⟨hname, rfl⟩ ⟨hname', haddr⟩
  rw [hdistinct e he e' he' ⟨hname, hname'⟩ haddr]

theorem second_update_replaces_table :
    let l : List LinkData := [⟨0, []⟩, ⟨0x7000, ['a']⟩, ⟨0x7000, ['b']⟩]
    let s := programMapped.update plainFiles l
    (s.map 0x7000).map (·.id) = some 2 ∧
      ((s.update plainFiles l).map 0x7000).map (·.id) = some 4 ∧
      ¬Follows plainFiles programMapped l := by
  intro l s
  have hfirst : (s.map 0x7000).map (·.id) = some 2 := by decide
  have hsecond : ((s.update plainFiles l).map 0x7000).map (·.id) = some 4 := by decide
  refine ⟨hfirst, hsecond, fun hf => ?_⟩
  rw [hf.again, hfirst] at hsecond
  cases hsecond

end ZeroBugs.Symbolz.SymbolMap
