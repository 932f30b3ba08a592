import ZeroBugs.Dharma.Stream

/-! # What the reader makes of an encoded record -/
namespace ZeroBugs.Dharma.Stream
open Lib List

inductive Comes {α : Type} (ok : Prop) (a : α) : Except Fault α → Prop
  | returned (h : ok) : Comes ok a (.ok a)
  | thrown (h : ¬ok) (e : Fault) : Comes ok a (.error e)

section Comes

variable {α β : Type} {ok ok' : Prop} {a : α} {r : Except Fault α}

theorem Comes.eq_ok (h : Comes ok a r) (hok : ok) : r = .ok a := by
  cases h with
  | returned => rfl
  | thrown hbad => exact absurd hok hbad

theorem Comes.eq_error (h : Comes ok a r) (hbad : ¬ok) : ∃ e, r = .error e := by
  cases h with
  | returned hok => exact absurd hok hbad
  | thrown _ e => exact ⟨e, rfl⟩

theorem Comes.of_ok (hok : ok) (h : r = .ok a) : Comes ok a r := h ▸ .returned hok

theorem Comes.map {f : α → β} {b : β} (h : Comes ok a r) (hb : f a = b) :
    Comes ok b (r.map f) := by
  subst hb
  cases h with
  | returned hok => exact .returned hok
  | thrown hbad e => exact .thrown hbad e

theorem Comes.congr (h : Comes ok a r) (hiff : ok ↔ ok') : Comes ok' a r := propext hiff ▸ h

end Comes

theorem CString.ofBuffer_bytes (s : CString) : CString.ofBuffer s.bytes = s := by
  obtain ⟨bytes, no_nul⟩ := s
  have h : bytes.takeWhile (· != 0) = bytes := by
    rw [takeWhile_eq_self_iff]
    intro x hx
    have hne : x ≠ 0 := fun h0 => no_nul (h0 ▸ hx)
    simp [hne]
  simp [CString.ofBuffer, h]

theorem Uuid.ofBuffer_bytes (u : Uuid) : Uuid.ofBuffer u.bytes = u := by
  obtain ⟨bytes, size⟩ := u
  simp only [Uuid.ofBuffer, Uuid.mk.injEq]
  exact take_left' size

@[simp] theorem Descriptor.bytes_length (d : Descriptor) : d.bytes.length = 8 := by
  simp [Descriptor.bytes]

theorem Descriptor.ofBuffer_append (d : Descriptor) (rest : List UInt8) :
    Descriptor.ofBuffer (d.bytes ++ rest) = d := by
  obtain ⟨type, flags, namelen, size⟩ := d
  have hname : LittleEndian.decode (LittleEndian.encode 2 namelen.toNat) = namelen.toNat :=
    LittleEndian.decode_encode_of_lt namelen.toNat_lt
  have hsize : LittleEndian.decode (LittleEndian.encode 4 size.toNat) = size.toNat :=
    LittleEndian.decode_encode_of_lt size.toNat_lt
  have htake : (LittleEndian.encode 4 size.toNat ++ rest).take 4 =
      LittleEndian.encode 4 size.toNat := take_left' (by simp)
  simp [Descriptor.ofBuffer, Descriptor.bytes, hname, htake, hsize]

theorem Descriptor.ofBuffer_bytes (d : Descriptor) : Descriptor.ofBuffer d.bytes = d := by
  simpa using d.ofBuffer_append []

@[simp] theorem Input.advance_rest (inp : Input) (n : Nat) :
    (inp.advance n).rest = inp.rest.drop n := rfl

@[simp] theorem Input.advance_maxRead (inp : Input) (n : Nat) :
    (inp.advance n).maxRead = inp.maxRead := rfl

@[simp] theorem Input.advance_advance (inp : Input) (n k : Nat) :
    (inp.advance n).advance k = inp.advance (n + k) := by
  simp [Input.advance, Nat.add_assoc]

theorem Input.readBuffer_ok {inp : Input} {room count : Nat} {bytes tail : List UInt8}
    (hrest : inp.rest = bytes ++ tail) (hlen : bytes.length = count) (hroom : count ≤ room)
    (hmax : count ≤ inp.maxRead) :
    inp.readBuffer room count = .ok (bytes, count, inp.advance count) := by
  have hrc : min count (min inp.maxRead inp.rest.length) = count := by
    rw [hrest, length_append]
    omega
  simp only [Input.readBuffer, hrc, if_neg (Nat.not_lt.mpr hroom), ne_eq, not_true_eq_false,
    and_false, if_false, Nat.sub_self, replicate_zero, append_nil]
  rw [hrest, take_left' hlen]

theorem Input.readBuffer_comes {inp : Input} (room : Nat) {count : Nat} {bytes tail : List UInt8}
    (hrest : inp.rest = bytes ++ tail) (hlen : bytes.length = count) (hpos : 0 < inp.maxRead) :
    Comes (count ≤ room ∧ count ≤ inp.maxRead) (bytes, count, inp.advance count)
      (inp.readBuffer room count) := by
  by_cases hok : count ≤ room ∧ count ≤ inp.maxRead
  · exact .of_ok hok (Input.readBuffer_ok hrest hlen hok.1 hok.2)
  by_cases hroom : room < count
  · rw [Input.readBuffer, if_pos hroom]
    exact .thrown hok _
  · have hrc : min count (min inp.maxRead inp.rest.length) = inp.maxRead := by
      rw [hrest, length_append]
      omega
    have hshort : inp.maxRead ≠ 0 ∧ inp.maxRead ≠ count := by omega
    simp only [Input.readBuffer, hrc, if_neg hroom, if_pos hshort]
    exact .thrown hok _

namespace Field

theorem encode_length (f : Field) :
    f.encode.length = 8 + f.name.strlen + (f.uuidBytes.length + f.payload.length) := by
  simp [encode, CString.strlen]
  omega

theorem Fits.namelen {f : Field} (h : f.Fits) : f.descriptor.namelen.toNat = f.name.strlen := by
  exact Nat.mod_eq_of_lt h.1

theorem Fits.size {f : Field} (h : f.Fits) : f.descriptor.size.toNat = f.payload.length := by
  exact Nat.mod_eq_of_lt h.2

end Field

variable {H : Type}

theorem rest_body {f : Field} {inp : Input} {tail : List UInt8}
    (hrest : inp.rest = f.encode ++ tail) :
    (inp.advance (8 + f.name.strlen)).rest = f.uuidBytes ++ (f.payload ++ tail) := by
  have hlen : (f.descriptor.bytes ++ f.name.bytes).length = 8 + f.name.strlen := by
    simp [CString.strlen]
  rw [Input.advance_rest, hrest]
  simp only [Field.encode, append_assoc]
  rw [← append_assoc, drop_left' hlen]

theorem read_encode (events : Option (Events H)) (h : H) {f : Field} (hfit : f.Fits)
    {inp : Input} {tail : List UInt8} (hrest : inp.rest = f.encode ++ tail)
    (hmax : 2 ^ 16 ≤ inp.maxRead) :
    read events h inp =
      (readValue events h f.descriptor f.name.bytes (inp.advance (8 + f.name.strlen))).map
        fun r => (8 + f.name.strlen + r.1, r.2) := by
  have hhead : inp.rest =
      f.descriptor.bytes ++ (f.name.bytes ++ (f.uuidBytes ++ f.payload) ++ tail) := by
    rw [hrest, Field.encode, append_assoc]
  have hname : (inp.advance 8).rest = f.name.bytes ++ (f.uuidBytes ++ f.payload ++ tail) := by
    rw [Input.advance_rest, hhead, drop_left' f.descriptor.bytes_length, append_assoc]
  have hlt := hfit.1
  have hread1 := Input.readBuffer_ok hhead f.descriptor.bytes_length (Nat.le_refl 8) (by omega)
  have hread2 : (inp.advance 8).readBuffer (f.name.strlen + 1) f.name.strlen = _ :=
    Input.readBuffer_ok hname rfl (Nat.le_succ _) (by rw [Input.advance_maxRead]; omega)
  unfold read
  rw [hread1]
  simp only [bind, Except.bind, Descriptor.ofBuffer_bytes, hfit.namelen, hread2]
  rw [Input.advance_advance]
  cases readValue events h f.descriptor f.name.bytes (inp.advance (8 + f.name.strlen)) <;> rfl

def notify (events : Option (Events H)) (h : H) : Field → H
  | .word name val => (events.map fun ev => ev.onWord h name val).getD h
  | .double name bits => (events.map fun ev => ev.onDouble h name bits).getD h
  | .string name str => (events.map fun ev => ev.onString h name str).getD h
  | .bytes name blob => (events.map fun ev => ev.onBytes h name blob).getD h
  | .object .. => h

theorem readFixed_ok (msg : String) (event : Option (UInt64 → H)) (h : H) {desc : Descriptor}
    (hsize : desc.size.toNat = 8) {inp : Input} {val : UInt64} {tail : List UInt8}
    (hrest : inp.rest = LittleEndian.encode 8 val.toNat ++ tail) (hmax : 8 ≤ inp.maxRead) :
    readFixed msg event h desc inp = .ok (8, inp.advance 8, (event.map (· val)).getD h) := by
  have hval : LittleEndian.decode (LittleEndian.encode 8 val.toNat) = val.toNat :=
    LittleEndian.decode_encode_of_lt val.toNat_lt
  have hread := Input.readBuffer_ok hrest (LittleEndian.encode_length 8 _) (Nat.le_refl 8) hmax
  unfold readFixed
  rw [hread]
  simp [hsize, bind, Except.bind, hval, pure, Except.pure]

/-! The cases of the `switch`. -/

section Switch

variable (events : Option (Events H)) (h : H) (desc : Descriptor) (name : List UInt8) (inp : Input)

theorem readValue_word64 (ht : desc.type = Tag.word64) :
    readValue events h desc name inp = readFixed "read: invalid int64"
      (events.map fun ev => ev.onWord h (.ofBuffer name)) h desc inp := by
  simp [readValue, ht, Tag.word64, Tag.null, Tag.word]

theorem readValue_double (ht : desc.type = Tag.double) :
    readValue events h desc name inp = readFixed "read: invalid DOUBLE"
      (events.map fun ev => ev.onDouble h (.ofBuffer name)) h desc inp := by
  simp [readValue, ht, Tag.double, Tag.word64, Tag.null, Tag.word]

theorem readValue_object (ht : desc.type = Tag.object) :
    readValue events h desc name inp = readObject events h desc name inp := by
  simp [readValue, ht, Tag.object, Tag.string, Tag.double, Tag.word64, Tag.null, Tag.word]

end Switch

theorem string_room_iff {name str : CString} (hfit : (Field.string name str).Fits) :
    (Field.string name str).descriptor.size.toNat ≤
        ((Field.string name str).descriptor.size + 1).toNat ↔ str.strlen + 1 < 2 ^ 32 := by
  have hlt : str.strlen < 2 ^ 32 := hfit.2
  have hsize : (Field.string name str).descriptor.size.toNat = str.strlen := hfit.size
  rw [UInt32.toNat_add, hsize, show (1 : UInt32).toNat = 1 from rfl]
  omega

theorem readValue_leaf (events : Option (Events H)) (h : H) {f : Field} (hfit : f.Fits)
    (hleaf : f.uuidBytes = []) {inp : Input} {tail : List UInt8}
    (hrest : inp.rest = f.payload ++ tail) (hmax : 2 ^ 16 ≤ inp.maxRead) :
    Comes (f.Readable inp.maxRead)
      (f.payload.length, inp.advance f.payload.length, notify events h f)
      (readValue events h f.descriptor f.name.bytes inp) := by
  have hsize := hfit.size
  have hlen8 := fun v => LittleEndian.encode_length 8 v
  cases f with
  | word name val =>
    refine .of_ok trivial ?_
    rw [readValue_word64 _ _ _ _ _ rfl, readFixed_ok _ _ _ (hsize.trans (hlen8 _)) hrest (by omega)]
    simp [Field.payload, Field.name, notify, CString.ofBuffer_bytes, Function.comp_def]
  | double name bits =>
    refine .of_ok trivial ?_
    rw [readValue_double _ _ _ _ _ rfl, readFixed_ok _ _ _ (hsize.trans (hlen8 _)) hrest (by omega)]
    simp [Field.payload, Field.name, notify, CString.ofBuffer_bytes, Function.comp_def]
  | string name str =>
    have hread := (Input.readBuffer_comes _ hrest hsize.symm (by omega)).congr
      (and_congr (string_room_iff hfit) (by rw [hsize]))
    exact hread.map (by simp [hsize, Field.payload, Field.name, notify, CString.ofBuffer_bytes])
  | bytes name blob =>
    have hread := (Input.readBuffer_comes _ hrest hsize.symm (by omega)).congr
      ((and_iff_right (Nat.le_refl _)).trans (by rw [hsize]))
    exact hread.map (by simp [hsize, Field.payload, Field.name, notify, CString.ofBuffer_bytes])
  | object name uuid content =>
    have huuid := uuid.size
    have hnil : uuid.bytes = [] := hleaf
    rw [hnil] at huuid
    cases huuid

theorem read_leaf (events : Option (Events H)) (h : H) {f : Field} (hfit : f.Fits) {inp : Input}
    {tail : List UInt8} (hrest : inp.rest = f.encode ++ tail) (hmax : 2 ^ 16 ≤ inp.maxRead)
    (hleaf : f.uuidBytes = []) :
    Comes (f.Readable inp.maxRead)
      (f.encode.length, inp.advance f.encode.length, notify events h f) (read events h inp) := by
  have hbody := rest_body hrest
  rw [hleaf, nil_append] at hbody
  rw [read_encode events h hfit hrest hmax, Field.encode_length, hleaf]
  exact (readValue_leaf events h hfit hleaf hbody hmax).map (by simp)

def objectHead (name : CString) : Nat := 8 + name.strlen + 16

section ReadObject

variable (h : H) {name : CString} {uuid : Uuid} {payload : List UInt8}
  (hfit : (Field.object name uuid payload).Fits) {inp : Input} {tail : List UInt8}
  (hrest : inp.rest = (Field.object name uuid payload).encode ++ tail)
  (hmax : 2 ^ 16 ≤ inp.maxRead)

include hrest in
theorem rest_payload : (inp.advance (objectHead name)).rest = payload ++ tail := by
  have hbody : (inp.advance (8 + name.strlen)).rest = uuid.bytes ++ (payload ++ tail) :=
    rest_body hrest
  rw [objectHead, ← Input.advance_advance, Input.advance_rest, hbody, drop_left' uuid.size]

include hrest hmax in
theorem readBuffer_uuid : (inp.advance (8 + name.strlen)).readBuffer 16 16 =
    .ok (uuid.bytes, 16, inp.advance (objectHead name)) := by
  have hbody : (inp.advance (8 + name.strlen)).rest = uuid.bytes ++ (payload ++ tail) :=
    rest_body hrest
  have hread := Input.readBuffer_ok hbody uuid.size (Nat.le_refl 16)
    (by rw [Input.advance_maxRead]; omega)
  rwa [Input.advance_advance] at hread

include hfit hrest hmax

theorem read_object_none :
    read none h inp = .ok (objectHead name, inp.advance (objectHead name), h) := by
  rw [read_encode none h hfit hrest hmax, readValue_object _ _ _ _ _ rfl]
  unfold readObject
  simp only [Field.name]
  rw [readBuffer_uuid hrest hmax]
  rfl

def afterBegin (ev : Events H) (name : CString) (uuid : Uuid) (desc : Descriptor)
    (answer : Nat × Input × H) : Except Fault (Nat × Input × H) :=
  let (tmp, inp, h) := answer
  if tmp ≠ 0 then .ok (objectHead name + tmp, inp, h)
  else if desc.size.toNat ≠ 0 then
    (inp.readBuffer desc.size.toNat desc.size.toNat).map fun r =>
      let opaqueBytes := desc.bytes ++ name.bytes ++ uuid.bytes ++ r.1
      (objectHead name + opaqueBytes.length, r.2.2, ev.onOpaque h name uuid opaqueBytes)
  else .ok (objectHead name, inp, h)

theorem read_object_some (ev : Events H) :
    read (some ev) h inp =
      (ev.onObjectBegin h (inp.advance (objectHead name)) name uuid payload.length).bind
        (afterBegin ev name uuid (Field.object name uuid payload).descriptor) := by
  rw [read_encode (some ev) h hfit hrest hmax, readValue_object _ _ _ _ _ rfl]
  unfold readObject
  have hname : name.bytes.take (Field.object name uuid payload).descriptor.namelen.toNat =
      name.bytes := by
    rw [hfit.namelen]
    exact take_length
  have hsize : (Field.object name uuid payload).descriptor.size.toNat = payload.length := hfit.size
  simp only [Field.name]
  rw [readBuffer_uuid hrest hmax]
  simp only [bind, Except.bind, CString.ofBuffer_bytes, Uuid.ofBuffer_bytes, hname, hsize]
  cases ev.onObjectBegin h (inp.advance (objectHead name)) name uuid payload.length with
  | error e => rfl
  | ok answer =>
    obtain ⟨tmp, inp', h'⟩ := answer
    simp only [afterBegin, hsize]
    by_cases htmp : tmp = 0
    · by_cases hp : payload.length = 0
      · simp [htmp, hp, Except.map, pure, Except.pure, objectHead]
      · simp only [htmp, hp, ne_eq, not_true_eq_false, not_false_eq_true, if_true, if_false]
        cases inp'.readBuffer payload.length payload.length with
        | error e => rfl
        | ok r => simp [Except.map, pure, Except.pure, objectHead, Nat.add_assoc]
    · simp [htmp, Except.map, pure, Except.pure, objectHead, Nat.add_assoc]

end ReadObject

theorem afterBegin_accepted (ev : Events H) (name : CString) (uuid : Uuid) {desc : Descriptor}
    {size : Nat} (hsize : desc.size.toNat = size) (inp : Input) (h : H) :
    afterBegin ev name uuid desc (size, inp, h) = .ok (objectHead name + size, inp, h) := by
  by_cases h0 : size = 0 <;> simp [afterBegin, hsize, h0]

def Accounted (result : Except Fault (Nat × Input × H)) (inp : Input) (tail : List UInt8) : Prop :=
  ∃ n inp' h', result = .ok (n, inp', h') ∧ inp'.pos = inp.pos + n ∧ inp'.rest = tail

inductive Handling where
  | null
  | declines
  | accepts
  deriving DecidableEq

/-- A handler that declines does not read, and one that accepts reads exactly the payload. -/
def Behaves (events : Option (Events H)) (h : H) (inp : Input) (f : Field) : Handling → Prop
  | .null => events = none
  | .declines => ∃ ev, events = some ev ∧ ∀ name uuid payload, f = .object name uuid payload →
      ∃ h', ev.onObjectBegin h (inp.advance (objectHead name)) name uuid payload.length =
        .ok (0, inp.advance (objectHead name), h')
  | .accepts => ∃ ev, events = some ev ∧ ∀ name uuid payload, f = .object name uuid payload →
      ∃ h', ev.onObjectBegin h (inp.advance (objectHead name)) name uuid payload.length =
        .ok (payload.length, inp.advance (objectHead name + payload.length), h')

/-- An object is accounted for if it is accepted or empty; any other record if
it can be read at all. -/
def Field.AccountedWhen (maxRead : Nat) (kind : Handling) : Field → Prop
  | .object _ _ payload => kind = .accepts ∨ payload = []
  | f => f.Readable maxRead

theorem not_accounted_error {result : Except Fault (Nat × Input × H)} {inp : Input}
    {tail : List UInt8} {e : Fault} (he : result = .error e) : ¬Accounted result inp tail := by
  intro h
  obtain ⟨n, inp', h', hr, -, -⟩ := h
  rw [he] at hr
  cases hr

theorem accounted_ok_iff {n : Nat} {inp inp' : Input} {h : H} {tail : List UInt8} :
    Accounted (.ok (n, inp', h)) inp tail ↔ inp'.pos = inp.pos + n ∧ inp'.rest = tail := by
  constructor
  · intro hacc
    obtain ⟨_, _, _, hr, hpos, hrest⟩ := hacc
    cases hr
    exact ⟨hpos, hrest⟩
  · intro hboth
    exact ⟨n, inp', h, rfl, hboth⟩

theorem accounted_leaf_iff (events : Option (Events H)) (h : H) {f : Field} (hfit : f.Fits)
    (hleaf : f.uuidBytes = []) {inp : Input} {tail : List UInt8}
    (hrest : inp.rest = f.encode ++ tail) (hmax : 2 ^ 16 ≤ inp.maxRead) :
    Accounted (read events h inp) inp tail ↔ f.Readable inp.maxRead := by
  have hread := read_leaf events h hfit hrest hmax hleaf
  generalize read events h inp = result at hread ⊢
  cases hread with
  | returned hok =>
    rw [accounted_ok_iff]
    simp [hok, Input.advance, hrest]
  | thrown hbad e => exact iff_of_false (not_accounted_error rfl) hbad

theorem objectHead_pos (name : CString) : 0 < objectHead name := by
  unfold objectHead
  omega

section AccountObject

variable (h : H) {name : CString} {uuid : Uuid} {payload : List UInt8}
  (hfit : (Field.object name uuid payload).Fits) {inp : Input} {tail : List UInt8}
  (hrest : inp.rest = (Field.object name uuid payload).encode ++ tail)
  (hmax : 2 ^ 16 ≤ inp.maxRead)

include hfit hrest hmax

theorem accounted_null_iff :
    Accounted (read none h inp) inp tail ↔ payload = [] := by
  rw [read_object_none h hfit hrest hmax, accounted_ok_iff, rest_payload hrest]
  simp [Input.advance]

theorem accounted_accepts (ev : Events H) {h' : H}
    (hacc : ev.onObjectBegin h (inp.advance (objectHead name)) name uuid payload.length =
      .ok (payload.length, inp.advance (objectHead name + payload.length), h')) :
    Accounted (read (some ev) h inp) inp tail := by
  have hafter : (inp.advance (objectHead name + payload.length)).rest = tail := by
    rw [← Input.advance_advance, Input.advance_rest, rest_payload hrest, drop_left]
  have hsize : (Field.object name uuid payload).descriptor.size.toNat = payload.length := hfit.size
  rw [read_object_some h hfit hrest hmax, hacc]
  simp only [Except.bind, afterBegin_accepted ev name uuid hsize, accounted_ok_iff]
  exact ⟨rfl, hafter⟩

theorem accounted_declines_iff (ev : Events H) {h' : H}
    (hdec : ev.onObjectBegin h (inp.advance (objectHead name)) name uuid payload.length =
      .ok (0, inp.advance (objectHead name), h')) :
    Accounted (read (some ev) h inp) inp tail ↔ payload = [] := by
  have hpay := rest_payload hrest
  have hsize : (Field.object name uuid payload).descriptor.size.toNat = payload.length := hfit.size
  have hhead := objectHead_pos name
  rw [read_object_some h hfit hrest hmax, hdec]
  simp only [Except.bind, afterBegin, hsize, ne_eq, not_true_eq_false, if_false]
  by_cases hp : payload = []
  · rw [hp, nil_append] at hpay
    simp only [hp, length_nil, not_true_eq_false, if_false, accounted_ok_iff, iff_true]
    exact ⟨rfl, hpay⟩
  · have hlen : ¬payload.length = 0 := fun h0 => hp (length_eq_zero_iff.mp h0)
    simp only [hlen, not_false_eq_true, if_true, hp, iff_false]
    by_cases hm : payload.length ≤ inp.maxRead
    · rw [Input.readBuffer_ok hpay rfl (Nat.le_refl _) hm]
      simp only [Except.map, accounted_ok_iff, Input.advance, length_append,
        Descriptor.bytes_length, uuid.size]
      omega
    · obtain ⟨e, he⟩ := (Input.readBuffer_comes payload.length hpay rfl
        (by rw [Input.advance_maxRead]; omega)).eq_error fun hok => hm hok.2
      rw [he]
      exact not_accounted_error rfl

end AccountObject

def skipper : Events Unit where
  onWord _ _ _ := ()
  onDouble _ _ _ := ()
  onString _ _ _ := ()
  onBytes _ _ _ := ()
  onObjectBegin _ inp _ _ size := .ok (size, inp.advance size, ())
  onOpaque _ _ _ _ := ()

def decliner : Events Unit := { skipper with onObjectBegin := fun _ inp _ _ _ => .ok (0, inp, ()) }

def noName : CString := ⟨[], not_mem_nil⟩

/-- An object without a name and with a payload of one byte. -/
def tinyObject : Field := .object noName ⟨List.replicate 16 0, rfl⟩ [7]

def tinyInput : Input := ⟨tinyObject.encode, 0, 2 ^ 16⟩

end ZeroBugs.Dharma.Stream
