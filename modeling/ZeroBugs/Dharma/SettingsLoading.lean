import ZeroBugs.Dharma.Settings

/-! # Loading a settings file -/
namespace ZeroBugs.Dharma
open Lib Dharma.Stream List

structure StoredObject where
  name : CString
  uuid : Uuid
  payload : List UInt8
  deriving DecidableEq

namespace StoredObject

def field (o : StoredObject) : Field := .object o.name o.uuid o.payload

def encode (o : StoredObject) : List UInt8 := o.field.encode

theorem encode_eq (o : StoredObject) :
    o.encode = o.field.descriptor.bytes ++ (o.name.bytes ++ (o.uuid.bytes ++ o.payload)) := rfl

theorem encode_length (o : StoredObject) :
    o.encode.length = o.name.strlen + o.payload.length + 24 := by
  rw [encode, field, encode_object_length, objectHead]
  omega

theorem encode_append_inj {o o' : StoredObject} (hfit : o.field.Fits) (hfit' : o'.field.Fits)
    {rest rest' : List UInt8} (h : o.encode ++ rest = o'.encode ++ rest') :
    o = o' ∧ rest = rest' := by
  simp only [encode_eq, append_assoc] at h
  obtain ⟨hdesc, h⟩ := append_inj h (by simp)
  have hd : o.field.descriptor = o'.field.descriptor := by
    rw [← Descriptor.ofBuffer_bytes o.field.descriptor, hdesc, Descriptor.ofBuffer_bytes]
  have hname : o.name.bytes.length = o'.name.bytes.length := by
    have hlen := hfit.namelen
    rw [hd, hfit'.namelen] at hlen
    exact hlen.symm
  have hsize : o.payload.length = o'.payload.length := by
    have hlen := hfit.size
    rw [hd, hfit'.size] at hlen
    exact hlen.symm
  obtain ⟨hn, h⟩ := append_inj h hname
  obtain ⟨hu, h⟩ := append_inj h (o.uuid.size.trans o'.uuid.size.symm)
  obtain ⟨hp, hr⟩ := append_inj h hsize
  obtain ⟨⟨_, _⟩, ⟨_, _⟩, _⟩ := o
  obtain ⟨⟨_, _⟩, ⟨_, _⟩, _⟩ := o'
  cases hn
  cases hu
  cases hp
  exact ⟨rfl, hr⟩

end StoredObject

def fileOf (objects : List StoredObject) : List UInt8 := objects.flatMap StoredObject.encode

@[simp] theorem fileOf_nil : fileOf [] = [] := rfl

@[simp] theorem fileOf_cons (o : StoredObject) (os : List StoredObject) :
    fileOf (o :: os) = o.encode ++ fileOf os := rfl

@[simp] theorem fileOf_append (os os' : List StoredObject) :
    fileOf (os ++ os') = fileOf os ++ fileOf os' := flatMap_append

def AllFit (objects : List StoredObject) : Prop := ∀ o ∈ objects, o.field.Fits

theorem fileOf_inj {os os' : List StoredObject} (hfit : AllFit os) (hfit' : AllFit os')
    (h : fileOf os = fileOf os') : os = os' := by
  have hpos : ∀ o : StoredObject, o.encode ≠ [] := fun o hnil => by
    have hlen := o.encode_length
    rw [hnil] at hlen
    cases hlen
  induction os generalizing os' with
  | nil =>
    cases os' with
    | nil => rfl
    | cons o' os' => exact absurd (List.append_eq_nil_iff.mp h.symm).1 (hpos o')
  | cons o os ih =>
    cases os' with
    | nil => exact absurd (List.append_eq_nil_iff.mp h).1 (hpos o)
    | cons o' os' =>
      obtain ⟨ho, hos⟩ := forall_mem_cons.mp hfit
      obtain ⟨ho', hos'⟩ := forall_mem_cons.mp hfit'
      obtain ⟨rfl, hrest⟩ := StoredObject.encode_append_inj ho ho' h
      exact congrArg (o :: ·) (ih hos hos' hrest)

variable {O : Type} (cls : Interfaces O) (factory : Option (Factory O))

def known (o : StoredObject) : Bool := (factory.bind fun create => create o.uuid o.name).isSome

def kept (o : StoredObject) : Bool := !known factory o && !o.payload.isEmpty

/-- The object writes some payload, whatever it is written behind, and returns
its length. -/
def Writes (st : Streamable) : Prop :=
  ∃ payload : List UInt8, payload.length < 2 ^ 32 ∧
    ∀ os : BStream, st.write os = .ok (payload.length, os.append payload)

def Saves (obj : O) (uuid : Uuid) : Prop :=
  ∃ st, cls.streamable obj = some st ∧ st.uuid = uuid ∧ Writes st

/-- An object that is created reads exactly its payload, whatever follows, and can be saved under
the UUID it was created for. -/
def ReadsEntire (maxRead : Nat) (o : StoredObject) : Prop :=
  ∀ create obj, factory = some create → create o.uuid o.name = some obj →
    ∀ inp tail, inp.rest = o.payload ++ tail → inp.maxRead = maxRead →
      ∃ obj', readLoop cls.events o.payload.length 0 inp obj =
          .ok (o.payload.length, inp.advance o.payload.length, obj') ∧
        Saves cls obj' o.uuid ∧ Saves cls (cls.onObjectEnd obj') o.uuid

/-- What can be loaded: an unknown object is read with one system call, and known
objects of one name are of one type. -/
structure Loadable (maxRead : Nat) (objects : List StoredObject) : Prop where
  unknown : ∀ o ∈ objects, known factory o = false → o.payload.length ≤ maxRead
  sameType : ∀ o ∈ objects, ∀ o' ∈ objects, known factory o = true → known factory o' = true →
    o.name = o'.name → o.uuid = o'.uuid

structure Loaded (maxRead : Nat) (done : List StoredObject) (s : Settings O) : Prop where
  words : s.wordMap = ∅
  doubles : s.doubleMap = ∅
  strings : s.stringMap = ∅
  opaques : s.opaqueList = (done.filter (kept factory)).map StoredObject.encode
  readable : ∀ o ∈ done, known factory o = false → o.payload.length ≤ maxRead
  entry : ∀ name obj, s.objectMap.lookup name = some obj →
    ∃ o ∈ done, known factory o = true ∧ o.name = name ∧ Saves cls obj o.uuid
  stored : ∀ o ∈ done, known factory o = true →
    ∃ obj, s.objectMap.lookup o.name = some obj ∧ Saves cls obj o.uuid

variable {cls factory}

theorem Saves.uuid_eq {obj : O} {u v : Uuid} (hu : Saves cls obj u) (hv : Saves cls obj v) :
    u = v := by
  obtain ⟨st, hst, rfl, -⟩ := hu
  obtain ⟨st', hst', rfl, -⟩ := hv
  rw [hst] at hst'
  cases hst'
  rfl

theorem Loadable.mono {maxRead : Nat} {os os' : List StoredObject}
    (h : Loadable factory maxRead os') (hsub : os ⊆ os') : Loadable factory maxRead os :=
  ⟨fun o ho => h.unknown o (hsub ho), fun o ho o' ho' => h.sameType o (hsub ho) o' (hsub ho')⟩

theorem Loaded.loadable {maxRead : Nat} {done : List StoredObject} {s : Settings O}
    (h : Loaded cls factory maxRead done s) : Loadable factory maxRead done := by
  refine ⟨h.readable, fun o ho o' ho' hk hk' hname => ?_⟩
  obtain ⟨obj, hobj, hs⟩ := h.stored o ho hk
  obtain ⟨obj', hobj', hs'⟩ := h.stored o' ho' hk'
  rw [hname, hobj'] at hobj
  cases hobj
  exact hs.uuid_eq hs'

theorem loaded_empty (maxRead : Nat) : Loaded cls factory maxRead [] Settings.empty where
  words := rfl
  doubles := rfl
  strings := rfl
  opaques := rfl
  readable o ho := absurd ho not_mem_nil
  entry name obj h := by simp [Settings.empty] at h
  stored o ho := absurd ho not_mem_nil

theorem Loaded.unknown {maxRead : Nat} {done : List StoredObject} {s s' : Settings O}
    (h : Loaded cls factory maxRead done s) {o : StoredObject} (hk : known factory o = false)
    (hmax : o.payload.length ≤ maxRead)
    (hs' : s' = { s with opaqueList :=
      s.opaqueList ++ ([o].filter (kept factory)).map StoredObject.encode }) :
    Loaded cls factory maxRead (done ++ [o]) s' := by
  subst hs'
  refine ⟨h.words, h.doubles, h.strings, ?_, ?_, ?_, ?_⟩
  · simp [h.opaques]
  · intro o' ho' hk'
    rcases mem_append.mp ho' with ho' | ho'
    · exact h.readable o' ho' hk'
    · rwa [mem_singleton.mp ho']
  · intro name obj hobj
    obtain ⟨o', ho', hrest⟩ := h.entry name obj hobj
    exact ⟨o', mem_append_left _ ho', hrest⟩
  · intro o' ho' hk'
    rcases mem_append.mp ho' with ho' | ho'
    · exact h.stored o' ho' hk'
    · rw [mem_singleton.mp ho', hk] at hk'
      cases hk'

theorem Loaded.known {maxRead : Nat} {done : List StoredObject} {s : Settings O}
    (h : Loaded cls factory maxRead done s) {o : StoredObject} (hk : known factory o = true)
    (hsame : ∀ o' ∈ done, ZeroBugs.Dharma.known factory o' = true → o'.name = o.name →
      o'.uuid = o.uuid)
    {obj : O} (hobj : Saves cls obj o.uuid) :
    Loaded cls factory maxRead (done ++ [o]) (s.putObject o.name obj) := by
  refine ⟨h.words, h.doubles, h.strings, ?_, ?_, ?_, ?_⟩
  · simp [Settings.putObject, h.opaques, kept, hk]
  · intro o' ho' hk'
    rcases mem_append.mp ho' with ho' | ho'
    · exact h.readable o' ho' hk'
    · rw [mem_singleton.mp ho', hk] at hk'
      cases hk'
  · intro name obj' hlook
    by_cases hname : name = o.name
    · subst hname
      simp only [Settings.putObject, AList.lookup_insert, Option.some.injEq] at hlook
      subst hlook
      exact ⟨o, by simp, hk, rfl, hobj⟩
    · rw [Settings.putObject, AList.lookup_insert_ne hname] at hlook
      obtain ⟨o', ho', hrest⟩ := h.entry name obj' hlook
      exact ⟨o', mem_append_left _ ho', hrest⟩
  · intro o' ho' hk'
    by_cases hname : o'.name = o.name
    · refine ⟨obj, by rw [hname]; exact AList.lookup_insert _, ?_⟩
      rcases mem_append.mp ho' with ho' | ho'
      · rwa [hsame o' ho' hk' hname]
      · rwa [mem_singleton.mp ho']
    · rcases mem_append.mp ho' with ho' | ho'
      · obtain ⟨obj', hlook, hs⟩ := h.stored o' ho' hk'
        exact ⟨obj', by rwa [Settings.putObject, AList.lookup_insert_ne hname], hs⟩
      · exact absurd (congrArg StoredObject.name (mem_singleton.mp ho')) hname

/-! One turn of the loop. -/

theorem onObjectBegin_unknown {o : StoredObject} (hk : known factory o = false) (s : Settings O)
    (inp : Input) (size : Nat) :
    (Settings.events cls factory).onObjectBegin s inp o.name o.uuid size = .ok (0, inp, s) := by
  change Settings.onObjectBegin cls factory s inp o.name o.uuid size = _
  unfold Settings.onObjectBegin
  cases factory with
  | none => rfl
  | some create =>
    have hnone : create o.uuid o.name = none := by simpa [known] using hk
    simp only [hnone]

theorem setObject_ok {s : Settings O} {name : CString} {obj : O} {uuid : Uuid}
    (hobj : Saves cls obj uuid)
    (hold : ∀ old, s.objectMap.lookup name = some old → Saves cls old uuid) :
    s.setObject cls name obj = .ok (s.putObject name obj) := by
  unfold Settings.setObject
  cases hlook : s.objectMap.lookup name with
  | none => rfl
  | some old =>
    obtain ⟨st, hst, huuid, -⟩ := hobj
    obtain ⟨stOld, hstOld, huuidOld, -⟩ := hold old hlook
    simp only [hst, hstOld, huuid, huuidOld, if_true]

theorem setObject_error {s : Settings O} {name : CString} {obj old : O} {uuid uuidOld : Uuid}
    (hobj : Saves cls obj uuid) (hlook : s.objectMap.lookup name = some old)
    (hold : Saves cls old uuidOld) (hne : uuidOld ≠ uuid) :
    ∃ e, s.setObject cls name obj = .error e := by
  unfold Settings.setObject
  obtain ⟨st, hst, rfl, -⟩ := hobj
  obtain ⟨stOld, hstOld, rfl, -⟩ := hold
  simp only [hlook, hst, hstOld, if_neg hne]
  exact ⟨_, rfl⟩

theorem putObject_putObject (s : Settings O) (name : CString) (a b : O) :
    (s.putObject name a).putObject name b = s.putObject name b := by
  simp only [Settings.putObject, AList.insert_insert]

section Step

variable {maxRead : Nat} {done : List StoredObject} {s : Settings O} {o : StoredObject}
  {inp : Input} {tail : List UInt8}
  (hload : Loaded cls factory maxRead done s) (hfit : o.field.Fits)
  (hrest : inp.rest = o.encode ++ tail) (hinp : inp.maxRead = maxRead) (hmax : 2 ^ 16 ≤ maxRead)

def StepResult (cls : Interfaces O) (factory : Option (Factory O)) (maxRead : Nat)
    (done : List StoredObject) (o : StoredObject) (inp : Input)
    (result : Except Fault (Nat × Input × Settings O)) : Prop :=
  (∃ n s', 0 < n ∧ result = .ok (n, inp.advance o.encode.length, s') ∧
    Loaded cls factory maxRead (done ++ [o]) s') ∨
  ((∃ e, result = .error e) ∧ ¬Loadable factory maxRead (done ++ [o]))

include hload hfit hrest hinp hmax

theorem read_step_unknown (hk : known factory o = false) :
    StepResult cls factory maxRead done o inp
      (read (some (Settings.events cls factory)) s inp) := by
  have hm : 2 ^ 16 ≤ inp.maxRead := hinp ▸ hmax
  have hsize : o.field.descriptor.size.toNat = o.payload.length := hfit.size
  have hpay : (inp.advance (objectHead o.name)).rest = o.payload ++ tail := rest_payload hrest
  have hlen : o.encode.length = objectHead o.name + o.payload.length :=
    encode_object_length o.name o.uuid o.payload
  have hread : read (some (Settings.events cls factory)) s inp =
      afterBegin (Settings.events cls factory) o.name o.uuid o.field.descriptor
        (0, inp.advance (objectHead o.name), s) := by
    rw [read_object_some s hfit hrest hm, onObjectBegin_unknown hk]
    rfl
  rw [hread]
  by_cases hp : o.payload = []
  · -- the reader has nothing to hand over
    left
    have h0 : o.payload.length = 0 := by rw [hp]; rfl
    refine ⟨objectHead o.name, s, objectHead_pos _, ?_, hload.unknown hk (by omega) ?_⟩
    · simp [afterBegin, hsize, h0, hlen]
    · simp [kept, hp]
  · have h0 : o.payload.length ≠ 0 := fun h0 => hp (length_eq_zero_iff.mp h0)
    simp only [afterBegin, hsize, ne_eq, not_true_eq_false, if_false, h0, not_false_eq_true,
      if_true]
    by_cases hle : o.payload.length ≤ maxRead
    · left
      rw [Input.readBuffer_ok hpay rfl (Nat.le_refl _)
        (by rw [Input.advance_maxRead, hinp]; exact hle)]
      refine ⟨_, _, ?_, by rw [hlen, ← Input.advance_advance]; rfl, hload.unknown hk hle ?_⟩
      · exact Nat.lt_of_lt_of_le (objectHead_pos o.name) (Nat.le_add_right _ _)
      · simp [Settings.events, kept, hk, hp, StoredObject.encode_eq]
    · right
      refine ⟨?_, fun hall => hle (hall.unknown o (by simp) hk)⟩
      obtain ⟨e, he⟩ := (Input.readBuffer_comes o.payload.length hpay rfl
        (by rw [Input.advance_maxRead]; omega)).eq_error fun hok => hle (hinp ▸ hok.2)
      exact ⟨e, by rw [he]; rfl⟩

theorem read_step_known (hreads : ReadsEntire cls factory maxRead o) (hk : known factory o = true) :
    StepResult cls factory maxRead done o inp
      (read (some (Settings.events cls factory)) s inp) := by
  have hm : 2 ^ 16 ≤ inp.maxRead := hinp ▸ hmax
  have hlen : o.encode.length = objectHead o.name + o.payload.length :=
    encode_object_length o.name o.uuid o.payload
  obtain ⟨create, rfl⟩ : ∃ create, factory = some create := by
    cases factory with
    | none => cases hk
    | some create => exact ⟨create, rfl⟩
  obtain ⟨obj, hobj⟩ : ∃ obj, create o.uuid o.name = some obj := Option.isSome_iff_exists.mp hk
  obtain ⟨obj', hloop, hsaves, hend⟩ := hreads create obj rfl hobj (inp.advance (objectHead o.name))
    tail (rest_payload hrest) hinp
  have hread : read (some (Settings.events cls (some create))) s inp =
      ((s.setObject cls o.name obj').map fun s' => (o.payload.length,
        inp.advance o.encode.length, s'.putObject o.name (cls.onObjectEnd obj'))).bind
        (afterBegin (Settings.events cls (some create)) o.name o.uuid o.field.descriptor) := by
    have hbegin : (Settings.events cls (some create)).onObjectBegin s
        (inp.advance (objectHead o.name)) o.name o.uuid o.payload.length =
        (s.setObject cls o.name obj').map fun s' => (o.payload.length,
          inp.advance o.encode.length, s'.putObject o.name (cls.onObjectEnd obj')) := by
      change Settings.onObjectBegin cls (some create) s _ o.name o.uuid _ = _
      simp only [Settings.onObjectBegin, hobj, hloop, bind, Except.bind, hlen,
        Input.advance_advance]
      cases s.setObject cls o.name obj' <;> rfl
    rw [read_object_some s hfit hrest hm, hbegin]
    rfl
  by_cases hsame : ∀ o' ∈ done, known (some create) o' = true → o'.name = o.name →
      o'.uuid = o.uuid
  · left
    have hset : s.setObject cls o.name obj' = .ok (s.putObject o.name obj') := by
      refine setObject_ok hsaves fun old hold => ?_
      obtain ⟨o', ho', hk', hname, hold⟩ := hload.entry o.name old hold
      rwa [← hsame o' ho' hk' hname]
    refine ⟨objectHead o.name + o.payload.length, s.putObject o.name (cls.onObjectEnd obj'),
      ?_, ?_, hload.known hk hsame hend⟩
    · exact Nat.lt_of_lt_of_le (objectHead_pos o.name) (Nat.le_add_right _ _)
    · rw [hread, hset]
      simp only [Except.map, Except.bind, putObject_putObject]
      exact afterBegin_accepted _ _ _ hfit.size _ _
  · right
    push Not at hsame
    obtain ⟨o', ho', hk', hname, hne⟩ := hsame
    obtain ⟨old, hlook, hold⟩ := hload.stored o' ho' hk'
    obtain ⟨e, he⟩ := setObject_error hsaves (hname ▸ hlook) hold hne
    refine ⟨⟨e, by rw [hread, he]; rfl⟩, fun hall => hne ?_⟩
    exact hall.sameType o' (mem_append_left _ ho') o (by simp) hk' hk hname

theorem read_step (hreads : ReadsEntire cls factory maxRead o) :
    StepResult cls factory maxRead done o inp
      (read (some (Settings.events cls factory)) s inp) := by
  cases hk : known factory o with
  | false => exact read_step_unknown hload hfit hrest hinp hmax hk
  | true => exact read_step_known hload hfit hrest hinp hmax hreads hk

end Step

theorem load_objects {maxRead : Nat} (hmax : 2 ^ 16 ≤ maxRead) {objects : List StoredObject}
    (hfit : AllFit objects) (hreads : ∀ o ∈ objects, ReadsEntire cls factory maxRead o)
    {done : List StoredObject} {s : Settings O} (hload : Loaded cls factory maxRead done s)
    {inp : Input} (hrest : inp.rest = fileOf objects) (hinp : inp.maxRead = maxRead) {fuel : Nat}
    (hfuel : objects.length < fuel) :
    (∃ s', Settings.load cls factory fuel inp s = some (.ok s') ∧
      Loaded cls factory maxRead (done ++ objects) s') ∨
    ((∃ e, Settings.load cls factory fuel inp s = some (.error e)) ∧
      ¬Loadable factory maxRead (done ++ objects)) := by
  induction objects generalizing done s inp fuel with
  | nil =>
    obtain ⟨fuel, rfl⟩ : ∃ f, fuel = f + 1 := ⟨fuel - 1, by simp at hfuel; omega⟩
    have hend : read (some (Settings.events cls factory)) s inp = .ok (0, inp.advance 0, s) := by
      simp [Stream.read, Input.readBuffer, hrest, bind, Except.bind, pure, Except.pure]
    left
    exact ⟨s, by simp [Settings.load, hend], by rwa [append_nil]⟩
  | cons o os ih =>
    obtain ⟨ho, hos⟩ := forall_mem_cons.mp hfit
    obtain ⟨hro, hros⟩ := forall_mem_cons.mp hreads
    obtain ⟨fuel, rfl⟩ : ∃ f, fuel = f + 1 := ⟨fuel - 1, by omega⟩
    have hlist : done ++ o :: os = done ++ [o] ++ os := by simp
    rcases read_step hload ho hrest hinp hmax hro with ⟨n, s', hn, hread, hload'⟩ | ⟨⟨e, he⟩, hbad⟩
    · have hrest' : (inp.advance o.encode.length).rest = fileOf os := by
        rw [Input.advance_rest, hrest, fileOf_cons, drop_left]
      have hturn : Settings.load cls factory (fuel + 1) inp s =
          Settings.load cls factory fuel (inp.advance o.encode.length) s' := by
        simp only [Settings.load, hread, if_neg (Nat.ne_of_gt hn)]
      rw [hturn, hlist]
      exact ih hos hros hload' hrest' hinp (by simpa using hfuel)
    · right
      refine ⟨⟨e, by simp only [Settings.load, he]⟩, fun hall => hbad (hall.mono ?_)⟩
      rw [hlist]
      exact subset_append_left _ _

end ZeroBugs.Dharma
