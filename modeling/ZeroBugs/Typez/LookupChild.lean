import ZeroBugs.Typez.ClassBases

/-! # Looking up members -/
namespace ZeroBugs.Typez.LookupChild

open Typez.ClassBases List

structure SharedString where
  id : Nat
  text : String
  deriving DecidableEq

inductive DataType where
  | klass (type : ClassType)
  | other (name : String)

namespace DataType

def name : DataType → String
  | klass type => type.name
  | other name => name

def isClass : DataType → Bool
  | klass _ => true
  | other _ => false

end DataType

/-- A symbol after it has been read. The flag says what is a base class of the object above it,
which is known from the type there. -/
inductive Object where
  | mk (name : Option SharedString) (addr : BitVec 64) (type : DataType) (isBase : Bool)
    (children : List Object)

abbrev Key := Option Nat × BitVec 64

def unnamedType : String := "<unnamed>"

namespace Object

def name : Object → Option SharedString
  | mk name _ _ _ _ => name

def type : Object → DataType
  | mk _ _ type _ _ => type

def isBase : Object → Bool
  | mk _ _ _ isBase _ => isBase

def children : Object → List Object
  | mk _ _ _ _ children => children

def key : Object → Key
  | mk name addr _ _ _ => (name.map SharedString.id, addr)

def hasName (name : String) (obj : Object) : Bool :=
  match obj.name with
  | some s => s.text = name
  | none => false

def isAnonymous (obj : Object) : Bool := obj.hasName unnamedType

def dives (obj child : Object) : Bool :=
  child.name.isSome &&
    match obj.type with
    | .klass type => child.isAnonymous || (type.lookupBase child.type.name true 0).1.isSome
    | .other _ => child.type.isClass

end Object

mutual
def Object.lookupChild (name : String) : Object → List Key → Option Object
  | .mk objName addr type isBase children, symset =>
    let obj := Object.mk objName addr type isBase children
    if obj.key ∈ symset then none
    else
      match children.find? (Object.hasName name) with
      | some child => some child
      | none => diveAll name obj.dives children (obj.key :: symset)
def diveAll (name : String) (dives : Object → Bool) : List Object → List Key → Option Object
  | [], _ => none
  | child :: children, symset =>
    if dives child then
      match child.lookupChild name symset with
      | some found => some found
      | none => diveAll name dives children symset
    else diveAll name dives children symset
end

/-- A member of the name is a child of the object, or of one that is reached through
anonymous members and base classes. -/
inductive Visible (name : String) : Object → Prop where
  | child {obj c : Object} : c ∈ obj.children → c.hasName name = true → Visible name obj
  | inside {obj c : Object} : c ∈ obj.children → c.isAnonymous = true ∨ c.isBase = true →
      Visible name c → Visible name obj

inductive Within (root : Object) : Object → Prop where
  | root : Within root root
  | child {obj c : Object} : Within root obj → c ∈ obj.children → Within root c

inductive Skeleton where
  | mk (isBase : Bool) (text : Option String) (children : List Skeleton)

mutual
def Object.skeleton : Object → Skeleton
  | .mk name _ _ isBase children => .mk isBase (name.map SharedString.text) (skeletons children)
def skeletons : List Object → List Skeleton
  | [] => []
  | child :: children => child.skeleton :: skeletons children
end

/-- The tree is as the classes say: base classes are among the children, and what has the type of a
base class has its members. -/
structure IsClassTree (root : Object) : Prop where
  isClass : root.type.isClass = true
  anonymous : ∀ obj, Within root obj → ∀ c ∈ obj.children, c.isAnonymous = true →
    c.type.isClass = true
  bases : ∀ obj, Within root obj → ∀ type, obj.type = .klass type → ∀ b ∈ type.bases,
    ∃ c ∈ obj.children, c.isBase = true ∧ c.type = .klass b.type
  isBase : ∀ obj, Within root obj → ∀ c ∈ obj.children, c.isBase = true → c.name.isSome ∧
    ∃ type, obj.type = .klass type ∧ ∃ b ∈ type.bases, c.type = .klass b.type
  same : ∀ obj, Within root obj → ∀ base, Within root base → base.isBase = true →
    obj.type.name = base.type.name →
    obj.type = base.type ∧ skeletons obj.children = skeletons base.children

structure FindsVisible (root : Object) (name : String) : Prop where
  found : (root.lookupChild name []).isSome = true ↔ Visible name root
  named : ∀ child, root.lookupChild name [] = some child → child.hasName name = true

inductive Way (name : String) : Object → List Object → Prop where
  | here {obj c : Object} : c ∈ obj.children → c.hasName name = true → Way name obj [obj]
  | step {obj c : Object} {path : List Object} : c ∈ obj.children → obj.dives c = true →
      Way name c path → Way name obj (obj :: path)

inductive Open (name : String) : List Key → Object → Prop where
  | child {symset : List Key} {obj c : Object} : obj.key ∉ symset → c ∈ obj.children →
      c.hasName name = true → Open name symset obj
  | inside {symset : List Key} {obj c : Object} : obj.key ∉ symset → c ∈ obj.children →
      obj.dives c = true → Open name (obj.key :: symset) c → Open name symset obj

mutual
theorem Object.lookupChild_isSome (name : String) : (obj : Object) → (symset : List Key) →
    ((obj.lookupChild name symset).isSome = true ↔ Open name symset obj)
  | .mk objName addr type isBase children, symset => by
    have ih := diveAll_isSome name
      (Object.dives (.mk objName addr type isBase children)) children
      (Object.key (.mk objName addr type isBase children) :: symset)
    rw [Object.lookupChild]
    split
    next hkey =>
      refine iff_of_false (by simp) ?_
      rintro (⟨hopen, _, _⟩ | ⟨hopen, _, _, _⟩) <;> exact hopen hkey
    next hkey =>
      cases hfind : children.find? (Object.hasName name) with
      | some child =>
        exact iff_of_true rfl
          (.child hkey (mem_of_find?_eq_some hfind) (find?_some hfind))
      | none =>
        refine ih.trans ⟨?_, ?_⟩
        · rintro ⟨c, hc, hdives, hopen⟩
          exact .inside hkey hc hdives hopen
        · rintro (⟨-, hc, hname⟩ | ⟨-, hc, hdives, hopen⟩)
          · exact absurd hname (find?_eq_none.mp hfind _ hc)
          · exact ⟨_, hc, hdives, hopen⟩
theorem diveAll_isSome (name : String) (dives : Object → Bool) :
    (children : List Object) → (symset : List Key) →
    ((diveAll name dives children symset).isSome = true ↔
      ∃ c ∈ children, dives c = true ∧ Open name symset c)
  | [], _ => by simp [diveAll]
  | child :: children, symset => by
    have ih := child.lookupChild_isSome name symset
    have ihAll := diveAll_isSome name dives children symset
    simp only [diveAll, mem_cons, exists_eq_or_imp]
    cases hdives : dives child with
    | false => simpa [hdives] using ihAll
    | true =>
      cases hfound : child.lookupChild name symset with
      | some found =>
        have hopen := ih.mp (by rw [hfound]; rfl)
        exact iff_of_true rfl (.inl ⟨rfl, hopen⟩)
      | none =>
        have hclosed : ¬ Open name symset child := fun hopen => by
          have := ih.mpr hopen
          rw [hfound] at this
          cases this
        simpa [hdives, hclosed] using ihAll
end

mutual
theorem Object.lookupChild_hasName {name : String} : (obj : Object) → {symset : List Key} →
    {child : Object} → obj.lookupChild name symset = some child → child.hasName name = true
  | .mk objName addr type isBase children, symset, child, h => by
    rw [Object.lookupChild] at h
    split at h
    · cases h
    · split at h
      next found hfind =>
        cases h
        exact find?_some hfind
      next => exact diveAll_hasName children h
theorem diveAll_hasName {name : String} {dives : Object → Bool} : (children : List Object) →
    {symset : List Key} → {child : Object} →
    diveAll name dives children symset = some child → child.hasName name = true
  | [], _, _, h => nomatch h
  | first :: children, symset, child, h => by
    rw [diveAll] at h
    split at h
    · split at h
      next found hfound =>
        cases h
        exact first.lookupChild_hasName hfound
      next => exact diveAll_hasName children h
    · exact diveAll_hasName children h
end

variable {obj : Object}

theorem open_iff {name : String} {symset : List Key} : Open name symset obj ↔
    ∃ path, Way name obj path ∧ (path.map Object.key).Nodup ∧
      ∀ o ∈ path, o.key ∉ symset := by
  constructor
  · intro h
    induction h with
    | @child symset obj c hkey hc hname =>
      exact ⟨[obj], .here hc hname, by simp, by simpa using hkey⟩
    | @inside symset obj c hkey hc hdives _ ih =>
      obtain ⟨path, hway, hnodup, hfree⟩ := ih
      refine ⟨obj :: path, .step hc hdives hway, ?_, ?_⟩
      · rw [map_cons, nodup_cons]
        refine ⟨fun hmem => ?_, hnodup⟩
        obtain ⟨o, ho, heq⟩ := mem_map.mp hmem
        exact hfree o ho (heq ▸ mem_cons_self)
      · intro o ho
        rcases mem_cons.mp ho with rfl | ho
        · exact hkey
        · exact fun hmem => hfree o ho (mem_cons_of_mem _ hmem)
  · rintro ⟨path, hway, hnodup, hfree⟩
    induction hway generalizing symset with
    | here hc hname => exact .child (hfree _ mem_cons_self) hc hname
    | step hc hdives _ ih =>
      rw [map_cons, nodup_cons] at hnodup
      refine .inside (hfree _ mem_cons_self) hc hdives (ih hnodup.2 fun o ho hmem => ?_)
      rcases mem_cons.mp hmem with heq | hmem
      · exact hnodup.1 (heq ▸ mem_map_of_mem ho)
      · exact hfree o (mem_cons_of_mem _ ho) hmem

theorem Object.hasName_iff {name : String} :
    obj.hasName name = true ↔ obj.name.map SharedString.text = some name := by
  cases hname : obj.name with
  | none => simp [Object.hasName, hname]
  | some s => simp [Object.hasName, hname]

theorem lookupBase_isSome {type : ClassType} {name : String} :
    (type.lookupBase name true 0).1.isSome ↔ ∃ b, IsBase b type ∧ b.name = name := by
  rw [← firstPath_isSome, ClassType.lookupBase_eq]
  cases type.firstPath name <;> rfl

theorem mem_skeletons {s : Skeleton} {objects : List Object} :
    s ∈ skeletons objects ↔ ∃ c ∈ objects, c.skeleton = s := by
  induction objects with
  | nil => simp [skeletons]
  | cons c objects ih => simp [skeletons, ih, eq_comm]

theorem visible_of_skeletons {name : String} {obj' : Object} (h : Visible name obj)
    (heq : skeletons obj.children = skeletons obj'.children) : Visible name obj' := by
  have hmatch {c : Object} {cs : List Object} (hc : c.skeleton ∈ skeletons cs) :
      ∃ c' ∈ cs, c'.isBase = c.isBase ∧
        c'.name.map SharedString.text = c.name.map SharedString.text ∧
        skeletons c.children = skeletons c'.children := by
    obtain ⟨c', hc', hskeleton⟩ := mem_skeletons.mp hc
    cases c
    cases c'
    obtain ⟨hbase, htext, hchildren⟩ := Skeleton.mk.inj hskeleton
    exact ⟨_, hc', hbase, htext, hchildren.symm⟩
  induction h generalizing obj' with
  | @child obj c hc hname =>
    obtain ⟨c', hc', -, htext, -⟩ := hmatch (heq ▸ mem_skeletons.mpr ⟨c, hc, rfl⟩)
    refine .child hc' ?_
    rw [Object.hasName_iff, htext, ← Object.hasName_iff]
    exact hname
  | @inside obj c hc hdown _ ih =>
    obtain ⟨c', hc', hbase, htext, hchildren⟩ := hmatch (heq ▸ mem_skeletons.mpr ⟨c, hc, rfl⟩)
    refine .inside hc' ?_ (ih hchildren)
    rw [Object.isAnonymous, Object.hasName_iff, htext, ← Object.hasName_iff, hbase]
    exact hdown

section Tree

variable {root : Object} (h : IsClassTree root) {name : String}

include h

theorem exists_base {base type : ClassType} (hbase : IsBase base type)
    (hobj : Within root obj) (htype : obj.type = .klass type) :
    ∃ b, Within root b ∧ b.isBase = true ∧ b.type = .klass base ∧
      (Visible name b → Visible name obj) := by
  induction hbase generalizing obj with
  | @direct type b hb heq =>
    obtain ⟨c, hc, hflag, hctype⟩ := h.bases obj hobj type htype b hb
    exact ⟨c, .child hobj hc, hflag, heq ▸ hctype, .inside hc (.inr hflag)⟩
  | @indirect type b hb _ ih =>
    obtain ⟨c, hc, hflag, hctype⟩ := h.bases obj hobj type htype b hb
    obtain ⟨b', hb', hflag', hbtype, hvisible⟩ := ih (.child hobj hc) hctype
    exact ⟨b', hb', hflag', hbtype, fun hv => .inside hc (.inr hflag) (hvisible hv)⟩

theorem visible_of_dives {c : Object} (hobj : Within root obj)
    (hclass : obj.type.isClass = true) (hc : c ∈ obj.children) (hdives : obj.dives c = true) :
    c.type.isClass = true ∧ (Visible name c → Visible name obj) := by
  cases htype : obj.type with
  | other typeName =>
    rw [htype] at hclass
    cases hclass
  | klass type =>
    simp only [Object.dives, htype, Bool.and_eq_true, Bool.or_eq_true] at hdives
    rcases hdives.2 with hanon | hbase
    · exact ⟨h.anonymous obj hobj c hc hanon, .inside hc (.inl hanon)⟩
    · obtain ⟨base, hbase, hname⟩ := lookupBase_isSome.mp hbase
      obtain ⟨b, hb, hflag, hbtype, hvisible⟩ := exists_base h hbase hobj htype
      have hnames : c.type.name = b.type.name := by
        rw [hbtype]
        exact hname.symm
      obtain ⟨hsame, hskeletons⟩ := h.same c (.child hobj hc) b hb hflag hnames
      refine ⟨?_, fun hv => hvisible (visible_of_skeletons hv hskeletons)⟩
      rw [hsame, hbtype]
      rfl

theorem visible_of_way {path : List Object} (hway : Way name obj path)
    (hobj : Within root obj) (hclass : obj.type.isClass = true) : Visible name obj := by
  induction hway with
  | here hc hname => exact .child hc hname
  | step hc hdives _ ih =>
    obtain ⟨hcclass, hvisible⟩ := visible_of_dives h hobj hclass hc hdives
    exact hvisible (ih (.child hobj hc) hcclass)

theorem dives_of_down {c : Object} (hobj : Within root obj)
    (hclass : obj.type.isClass = true) (hc : c ∈ obj.children)
    (hdown : c.isAnonymous = true ∨ c.isBase = true) : obj.dives c = true := by
  rcases hdown with hanon | hflag
  · cases htype : obj.type with
    | other typeName =>
      rw [htype] at hclass
      cases hclass
    | klass type =>
      have hname : c.name.isSome = true := by
        rw [Object.isAnonymous, Object.hasName_iff] at hanon
        cases hcname : c.name with
        | none =>
          rw [hcname] at hanon
          cases hanon
        | some s => rfl
      simp [Object.dives, htype, hanon, hname]
  · obtain ⟨hname, type, htype, b, hb, hctype⟩ := h.isBase obj hobj c hc hflag
    have hfound : (type.lookupBase c.type.name true 0).1.isSome = true := by
      rw [lookupBase_isSome, hctype]
      exact ⟨b.type, .direct hb rfl, rfl⟩
    simp only [Object.dives, htype, hname, hfound, Bool.or_true, Bool.and_true]

theorem way_of_visible (hvisible : Visible name obj) (hobj : Within root obj)
    (hclass : obj.type.isClass = true) : ∃ path, Way name obj path := by
  induction hvisible with
  | child hc hname => exact ⟨_, .here hc hname⟩
  | inside hc hdown _ ih =>
    have hdives := dives_of_down h hobj hclass hc hdown
    have hvisible_of : _ ∧ (Visible name _ → Visible name _) :=
      visible_of_dives h hobj hclass hc hdives
    obtain ⟨path, hway⟩ := ih (.child hobj hc) hvisible_of.1
    exact ⟨_, .step hc hdives hway⟩

end Tree

theorem findsVisible_iff {root : Object} (h : IsClassTree root) (name : String) :
    FindsVisible root name ↔ ∀ path, Way name root path →
      ∃ path', Way name root path' ∧ (path'.map Object.key).Nodup := by
  have hfound : (root.lookupChild name []).isSome = true ↔
      ∃ path, Way name root path ∧ (path.map Object.key).Nodup := by
    rw [Object.lookupChild_isSome, open_iff]
    simp
  constructor
  · intro hfinds path hway
    exact hfound.mp (hfinds.found.mpr (visible_of_way h hway .root h.isClass))
  · intro hdistinct
    refine ⟨?_, fun child => root.lookupChild_hasName⟩
    rw [hfound]
    constructor
    · rintro ⟨path, hway, -⟩
      exact visible_of_way h hway .root h.isClass
    · intro hvisible
      obtain ⟨path, hway⟩ := way_of_visible h hvisible .root h.isClass
      exact hdistinct path hway

/-! A struct with a member in an anonymous struct within an anonymous struct. -/

def unnamedStruct : DataType := .klass (.mk unnamedType unnamedType 32 [])

def member (addr : BitVec 64) : Object := .mk (some ⟨1, "x"⟩) addr (.other "int") false []

def inner (addr : BitVec 64) : Object :=
  .mk (some ⟨0, unnamedType⟩) addr unnamedStruct false [member addr]

def outer (addr : BitVec 64) : Object :=
  .mk (some ⟨0, unnamedType⟩) 0x1000 unnamedStruct false [inner addr]

def nested (addr : BitVec 64) : Object :=
  .mk (some ⟨2, "s"⟩) 0x1000 (.klass (.mk "S" "S" 64 [])) false [outer addr]

theorem within_nested {addr : BitVec 64} (h : Within (nested addr) obj) :
    obj = nested addr ∨ obj = outer addr ∨ obj = inner addr ∨ obj = member addr := by
  induction h with
  | root => exact .inl rfl
  | child _ hc ih =>
    rcases ih with rfl | rfl | rfl | rfl
    · exact .inr (.inl (mem_singleton.mp hc))
    · exact .inr (.inr (.inl (mem_singleton.mp hc)))
    · exact .inr (.inr (.inr (mem_singleton.mp hc)))
    · cases hc

theorem isClassTree_nested (addr : BitVec 64) : IsClassTree (nested addr) where
  isClass := rfl
  anonymous obj hobj c hc hanon := by
    rcases within_nested (.child hobj hc) with rfl | rfl | rfl | rfl
    · rfl
    · rfl
    · rfl
    · cases hanon
  bases obj hobj type htype b hb := by
    rcases within_nested hobj with rfl | rfl | rfl | rfl
    · cases htype; cases hb
    · cases htype; cases hb
    · cases htype; cases hb
    · cases htype
  isBase obj hobj c hc hflag := by
    rcases within_nested (.child hobj hc) with rfl | rfl | rfl | rfl <;> cases hflag
  same obj _ base hbase hflag := by
    rcases within_nested hbase with rfl | rfl | rfl | rfl <;> cases hflag

theorem way_nested (addr : BitVec 64) :
    Way "x" (nested addr) [nested addr, outer addr, inner addr] :=
  .step (.head _) rfl (.step (.head _) rfl (.here (.head _) rfl))

theorem findsVisible_nested : FindsVisible (nested 0x1004) "x" :=
  (findsVisible_iff (isClassTree_nested 0x1004) "x").mpr
    fun _ _ => ⟨_, way_nested 0x1004, by decide⟩

theorem sameAddress_not_findsVisible :
    IsClassTree (nested 0x1000) ∧ ¬ FindsVisible (nested 0x1000) "x" := by
  refine ⟨isClassTree_nested 0x1000, fun h => ?_⟩
  have hvisible := visible_of_way (isClassTree_nested 0x1000) (way_nested 0x1000) .root rfl
  have hnone : (nested 0x1000).lookupChild "x" [] = none := rfl
  have hsome := h.found.mpr hvisible
  cases hsome

end ZeroBugs.Typez.LookupChild
