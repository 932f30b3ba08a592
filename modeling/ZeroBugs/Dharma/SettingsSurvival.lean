import ZeroBugs.Dharma.SettingsLoading

/-! # Unknown objects in a settings file -/
namespace ZeroBugs.Dharma
open Lib Dharma.Stream List

variable {O : Type} {cls : Interfaces O} {factory : Option (Factory O)}

section WriteEach

variable {α : Type} {write : α → BStream → Except Fault (Nat × BStream)}

theorem writeEach_objects {P : StoredObject → Prop} {xs : List α}
    (h : ∀ x ∈ xs, ∀ os, ∃ n objects, write x os = .ok (n, os.append (fileOf objects)) ∧
      ∀ o ∈ objects, P o) (os : BStream) :
    ∃ n objects, writeEach write xs os = .ok (n, os.append (fileOf objects)) ∧
      ∀ o ∈ objects, P o := by
  induction xs generalizing os with
  | nil => exact ⟨0, [], by simp [writeEach, BStream.append], by simp⟩
  | cons x xs ih =>
    obtain ⟨hx, hxs⟩ := forall_mem_cons.mp h
    obtain ⟨n, objects, hwrite, hP⟩ := hx os
    obtain ⟨k, objects', hwrite', hP'⟩ := ih hxs (os.append (fileOf objects))
    refine ⟨n + k, objects ++ objects', ?_, ?_⟩
    · simp [writeEach, hwrite, hwrite', bind, Except.bind, pure, Except.pure,
        BStream.append_append]
    · intro o ho
      rcases mem_append.mp ho with ho | ho
      · exact hP o ho
      · exact hP' o ho

theorem writeEach_map {β : Type} (f : β → α) (xs : List β) (os : BStream) :
    writeEach write (xs.map f) os = writeEach (fun x => write (f x)) xs os := by
  induction xs generalizing os with
  | nil => rfl
  | cons x xs ih => simp only [map_cons, writeEach, ih]

theorem writeEach_error {xs : List α} {x : α} (hx : x ∈ xs)
    (hbad : ∀ os, ∃ e, write x os = .error e) (os : BStream) :
    ∃ e, writeEach write xs os = .error e := by
  induction xs generalizing os with
  | nil => cases hx
  | cons y ys ih =>
    simp only [writeEach, bind, Except.bind]
    cases hy : write y os with
    | error e => exact ⟨e, rfl⟩
    | ok r =>
      rcases mem_cons.mp hx with rfl | hx
      · obtain ⟨e, he⟩ := hbad os
        rw [hy] at he
        cases he
      · obtain ⟨e, he⟩ := ih hx r.2
        exact ⟨e, by simp only [he]⟩

end WriteEach

/-- Size and length of the name do not wrap around when `write_opaque` adds them. -/
def Rewritable (o : StoredObject) : Prop := o.name.strlen + o.payload.length < 2 ^ 32

theorem descriptor_of_encode (o : StoredObject) :
    Descriptor.ofBuffer o.encode = o.field.descriptor := by
  rw [StoredObject.encode_eq, Descriptor.ofBuffer_append]

variable {o : StoredObject}

theorem calcSize_eq (hfit : o.field.Fits) :
    (o.field.descriptor.size + o.field.descriptor.namelen.toUInt32).toNat =
      (o.name.strlen + o.payload.length) % 2 ^ 32 := by
  have hname : o.field.descriptor.namelen.toNat = o.name.strlen := hfit.namelen
  have hsize : o.field.descriptor.size.toNat = o.payload.length := hfit.size
  rw [UInt32.toNat_add, UInt16.toNat_toUInt32, hname, hsize, Nat.add_comm]

theorem writeOpaque_encode (hfit : o.field.Fits) (hwr : Rewritable o)
    (os : BStream) : os.writeOpaque o.encode = .ok (o.encode.length, os.append o.encode) := by
  have hlen := o.encode_length
  have hcalc := calcSize_eq hfit
  rw [Nat.mod_eq_of_lt hwr] at hcalc
  unfold BStream.writeOpaque
  rw [if_neg (by omega), descriptor_of_encode]
  simp only [hcalc, os.writeBuffer_all rfl]
  rw [if_neg]
  rintro (htype | hsize)
  · exact htype rfl
  · omega

theorem writeOpaque_error (hfit : o.field.Fits) (hwr : ¬Rewritable o)
    (os : BStream) : ∃ e, os.writeOpaque o.encode = .error e := by
  have hlen := o.encode_length
  have hcalc := calcSize_eq hfit
  unfold Rewritable at hwr
  unfold BStream.writeOpaque
  rw [if_neg (by omega), descriptor_of_encode]
  rw [if_pos (Or.inr (by omega))]
  exact ⟨_, rfl⟩

theorem writeEntry_eq {entry : (_ : CString) × O} {uuid : Uuid} (hname : entry.1.strlen < 2 ^ 16)
    (hsaves : Saves cls entry.2 uuid) (os : BStream) :
    ∃ n payload, Settings.writeEntry cls entry os =
        .ok (n, os.append (StoredObject.encode ⟨entry.1, uuid, payload⟩)) ∧
      (StoredObject.field ⟨entry.1, uuid, payload⟩).Fits := by
  obtain ⟨st, hst, rfl, payload, hlt, hwrite⟩ := hsaves
  have hfit : (Field.object entry.1 st.uuid payload).Fits := ⟨hname, hlt⟩
  have hobject := os.writeObject_eq hfit fun bytes => by rw [hwrite, BStream.append_append]
  exact ⟨_, payload, by simp only [Settings.writeEntry, hst]; exact hobject, hfit⟩

section Write

variable {maxRead : Nat} {done : List StoredObject} {s : Settings O}
  (hload : Loaded cls factory maxRead done s) (hfit : AllFit done)

include hload hfit

theorem writeProperties_loaded (os : BStream) :
    ∃ n saved, s.writeProperties cls os = .ok (n, os.append (fileOf saved)) ∧
      ∀ o ∈ saved, o.field.Fits ∧ known factory o = true := by
  have hentry : ∀ e ∈ s.objectMap.entries, ∀ os, ∃ n objects,
      Settings.writeEntry cls e os = .ok (n, os.append (fileOf objects)) ∧
      ∀ o ∈ objects, o.field.Fits ∧ known factory o = true := by
    intro e he os
    have hlook : s.objectMap.lookup e.1 = some e.2 := AList.mem_lookup_iff.mpr he
    obtain ⟨o, ho, hk, hname, hsaves⟩ := hload.entry e.1 e.2 hlook
    obtain ⟨n, payload, hwrite, hfit'⟩ := writeEntry_eq (hname ▸ (hfit o ho).1) hsaves os
    refine ⟨n, [⟨e.1, o.uuid, payload⟩], by rw [hwrite]; simp, ?_⟩
    intro o' ho'
    rw [mem_singleton.mp ho', ← hname]
    exact ⟨hname ▸ hfit', hk⟩
  obtain ⟨n, saved, hwrite, hsaved⟩ := writeEach_objects hentry os
  refine ⟨n, saved, ?_, hsaved⟩
  simp [Settings.writeProperties, hload.words, hload.doubles, hload.strings, writeEach, hwrite,
    bind, Except.bind, pure, Except.pure]

theorem write_loaded (hwr : ∀ o ∈ done, kept factory o = true → Rewritable o) (os : BStream) :
    ∃ n saved, s.write cls true os = .ok (n, os.append (fileOf saved)) ∧ AllFit saved ∧
      saved.filter (fun o => !known factory o) = done.filter (kept factory) := by
  obtain ⟨n, saved, hprops, hsaved⟩ := writeProperties_loaded hload hfit os
  have hblocks : ∀ (objects : List StoredObject) (os : BStream),
      (∀ o ∈ objects, o.field.Fits ∧ Rewritable o) →
      ∃ k, writeEach (fun o os => os.writeOpaque (StoredObject.encode o)) objects os =
        .ok (k, os.append (fileOf objects)) := by
    intro objects
    induction objects with
    | nil => exact fun os _ => ⟨0, by simp [writeEach, BStream.append]⟩
    | cons o objects ih =>
      intro os hall
      obtain ⟨⟨hfit, hwr⟩, hall⟩ := forall_mem_cons.mp hall
      obtain ⟨k, hk⟩ := ih (os.append o.encode) hall
      refine ⟨o.encode.length + k, ?_⟩
      simp [writeEach, writeOpaque_encode hfit hwr, hk, bind, Except.bind, pure, Except.pure,
        BStream.append_append]
  obtain ⟨k, hk⟩ := hblocks (done.filter (kept factory)) (os.append (fileOf saved)) fun o ho =>
    ⟨hfit o (mem_of_mem_filter ho),
      hwr o (mem_of_mem_filter ho) (mem_filter.mp ho).2⟩
  refine ⟨n + k, saved ++ done.filter (kept factory), ?_, ?_, ?_⟩
  · simp [Settings.write, hprops, hload.opaques, writeEach_map, hk, bind, Except.bind, pure,
      Except.pure, BStream.append_append]
  · intro o ho
    rcases mem_append.mp ho with ho | ho
    · exact (hsaved o ho).1
    · exact hfit o (mem_of_mem_filter ho)
  · have hnone : saved.filter (fun o => !known factory o) = [] := by
      rw [filter_eq_nil_iff]
      intro o ho
      simp [(hsaved o ho).2]
    have hall : (done.filter (kept factory)).filter (fun o => !known factory o) =
        done.filter (kept factory) := by
      rw [filter_eq_self]
      intro o ho
      have hkept := (mem_filter.mp ho).2
      simp only [kept, Bool.and_eq_true] at hkept
      exact hkept.1
    rw [filter_append, hnone, hall, nil_append]

theorem write_loaded_error (ho : o ∈ done) (hkept : kept factory o = true)
    (hwr : ¬Rewritable o) (os : BStream) : ∃ e, s.write cls true os = .error e := by
  obtain ⟨n, saved, hprops, -⟩ := writeProperties_loaded hload hfit os
  obtain ⟨e, he⟩ : ∃ e, writeEach (fun bytes os => os.writeOpaque bytes) s.opaqueList
      (os.append (fileOf saved)) = .error e := by
    refine writeEach_error (x := o.encode) ?_ (writeOpaque_error (hfit o ho) hwr) _
    rw [hload.opaques]
    exact mem_map_of_mem (mem_filter.mpr ⟨ho, hkept⟩)
  exact ⟨e, by simp [Settings.write, hprops, he, bind, Except.bind]⟩

end Write

/-- Loading `objects` into new settings and saving these writes the unknown ones as they were, in
the same order. -/
def Survive (cls : Interfaces O) (factory : Option (Factory O)) (maxRead : Nat)
    (objects : List StoredObject) : Prop :=
  ∀ fuel, objects.length < fuel →
    ∃ s, Settings.load cls factory fuel ⟨fileOf objects, 0, maxRead⟩ .empty = some (.ok s) ∧
      ∀ os, ∃ n saved, s.write cls true os = .ok (n, os.append (fileOf saved)) ∧
        AllFit saved ∧
        saved.filter (fun o => !known factory o) = objects.filter fun o => !known factory o

/-- An unknown object is not empty, is read with one system call, and its size and that of its name
add up to less than `2 ^ 32`; known objects of one name are of one type. -/
def Preserved (factory : Option (Factory O)) (maxRead : Nat) (objects : List StoredObject) :
    Prop :=
  Loadable factory maxRead objects ∧
    ∀ o ∈ objects, known factory o = false → o.payload ≠ [] ∧ Rewritable o

section Survive

variable {maxRead : Nat} (hmax : 2 ^ 16 ≤ maxRead) {objects : List StoredObject}
  (hfit : AllFit objects) (hreads : ∀ o ∈ objects, ReadsEntire cls factory maxRead o)

include hmax hfit hreads

theorem load_file {fuel : Nat} (hfuel : objects.length < fuel) :
    (∃ s, Settings.load cls factory fuel ⟨fileOf objects, 0, maxRead⟩ .empty = some (.ok s) ∧
      Loaded cls factory maxRead objects s) ∨
    ((∃ e, Settings.load cls factory fuel ⟨fileOf objects, 0, maxRead⟩ .empty = some (.error e)) ∧
      ¬Loadable factory maxRead objects) := by
  have hrest : (Input.mk (fileOf objects) 0 maxRead).rest = fileOf objects := rfl
  exact load_objects hmax hfit hreads (loaded_empty maxRead) hrest rfl hfuel

theorem survive_of_preserved (h : Preserved factory maxRead objects) :
    Survive cls factory maxRead objects := by
  obtain ⟨hall, hunknown⟩ := h
  intro fuel hfuel
  rcases load_file hmax hfit hreads hfuel with ⟨s, hs, hload⟩ | ⟨-, hbad⟩
  · refine ⟨s, hs, fun os => ?_⟩
    have hkept : objects.filter (kept factory) = objects.filter fun o => !known factory o := by
      refine filter_congr fun o ho => ?_
      cases hk : known factory o with
      | true => simp [kept, hk]
      | false => simp [kept, hk, (hunknown o ho hk).1]
    rw [← hkept]
    refine write_loaded hload hfit (fun o ho hko => ?_) os
    simp only [kept, Bool.and_eq_true, Bool.not_eq_true'] at hko
    exact (hunknown o ho hko.1).2
  · exact absurd hall hbad

theorem preserved_of_survive (h : Survive cls factory maxRead objects) :
    Preserved factory maxRead objects := by
  obtain ⟨s, hs, hwrite⟩ := h _ (Nat.lt_succ_self _)
  rcases load_file hmax hfit hreads (Nat.lt_succ_self _) with ⟨s', hs', hload⟩ | ⟨⟨e, he⟩, -⟩
  · obtain rfl : s = s' := by
      rw [hs] at hs'
      cases hs'
      rfl
    obtain ⟨n, saved, hw, hsaved, hfilter⟩ := hwrite ⟨64, []⟩
    have hwr : ∀ o ∈ objects, kept factory o = true → Rewritable o := by
      intro o ho hk
      by_contra hbad
      obtain ⟨e, he⟩ := write_loaded_error hload hfit ho hk hbad ⟨64, []⟩
      rw [hw] at he
      cases he
    -- what is written determines the objects in the file
    obtain ⟨n', saved', hw', hsaved', hfilter'⟩ := write_loaded hload hfit hwr ⟨64, []⟩
    have hfile : fileOf saved = fileOf saved' := by
      rw [hw] at hw'
      simpa [BStream.append] using (congrArg (fun r => r.2.buf) (Except.ok.inj hw'))
    obtain rfl := fileOf_inj hsaved hsaved' hfile
    rw [hfilter'] at hfilter
    refine ⟨hload.loadable, fun o ho hk => ?_⟩
    have hmem : o ∈ objects.filter (kept factory) := by
      rw [hfilter]
      exact mem_filter.mpr ⟨ho, by simp [hk]⟩
    have hkept := (mem_filter.mp hmem).2
    exact ⟨by simpa [kept, hk] using hkept, hwr o ho hkept⟩
  · rw [hs] at he
    cases he

end Survive

def uuidOf (byte : UInt8) : Uuid := ⟨List.replicate 16 byte, rfl⟩

def counterUuid : Uuid := uuidOf 1

def counterRecord (val : UInt64) : Record := .word noName val

def counter : Interfaces UInt64 where
  events :=
    { onWord := fun _ _ val => val
      onDouble := fun h _ _ => h
      onString := fun h _ _ => h
      onBytes := fun h _ _ => h
      onObjectBegin := fun h inp _ _ _ => .ok (0, inp, h)
      onOpaque := fun h _ _ _ => h }
  onObjectEnd := id
  streamable val := some ⟨counterUuid, fun os =>
    .ok (16, os.append (counterRecord val).field.encode)⟩

def counterFactory : Option (Factory UInt64) :=
  some fun uuid _ => if uuid = counterUuid then some 0 else none

theorem counterRecord_length (val : UInt64) : (counterRecord val).field.encode.length = 16 := by
  rfl

theorem counter_saves (val : UInt64) : Saves counter val counterUuid := by
  refine ⟨_, rfl, rfl, (counterRecord val).field.encode, ?_, fun os => ?_⟩
  · rw [counterRecord_length]
    decide
  · rw [counterRecord_length]

theorem counter_reads (name : CString) (val : UInt64) :
    ReadsEntire counter counterFactory (2 ^ 16)
      ⟨name, counterUuid, (counterRecord val).field.encode⟩ := by
  intro create obj _ _ inp tail hrest hinp
  have hfit : (counterRecord val).field.Fits :=
    ⟨show noName.strlen < 2 ^ 16 by decide, (LittleEndian.encode_length 8 _).trans_lt (by decide)⟩
  have hone := (read_leaf (some counter.events) obj hfit hrest (Nat.le_of_eq hinp.symm) rfl).eq_ok
    trivial
  have hpos := encode_length_pos (counterRecord val).field
  refine ⟨val, ?_, counter_saves val, counter_saves val⟩
  rw [readLoop_cons hpos hpos hone, Nat.zero_add, readLoop_done]
  rfl

theorem unknown_reads {maxRead : Nat} (hk : known factory o = false) :
    ReadsEntire cls factory maxRead o := by
  rintro create obj rfl hobj
  simp [known, hobj] at hk

def strangerUuid : Uuid := uuidOf 2

def sampleFile : List StoredObject :=
  [⟨noName, counterUuid, (counterRecord 7).field.encode⟩, ⟨noName, strangerUuid, [1, 2, 3]⟩]

end ZeroBugs.Dharma
