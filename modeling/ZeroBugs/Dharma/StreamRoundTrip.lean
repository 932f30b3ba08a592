import ZeroBugs.Dharma.StreamSoundness

/-! # Writing a tree and reading it back -/
namespace ZeroBugs.Dharma.Stream
open Lib List

def BStream.append (s : BStream) (bytes : List UInt8) : BStream :=
  { s with buf := s.buf ++ bytes }

theorem BStream.writeBuffer_all (s : BStream) {bytes : List UInt8} {count : Nat}
    (h : bytes.length = count) : s.writeBuffer bytes count = s.append bytes := by
  rw [BStream.writeBuffer, take_of_length_le (Nat.le_of_eq h)]
  rfl

theorem BStream.append_append (s : BStream) (a b : List UInt8) :
    (s.append a).append b = s.append (a ++ b) := by
  simp [BStream.append]

theorem BStream.writeValue_eq (s : BStream) (f : Field) (hfit : f.Fits)
    (hleaf : f.uuidBytes = []) :
    s.writeValue f.type f.name (UInt32.ofNat f.payload.length) f.payload =
      (f.encode.length, s.append f.encode) := by
  have hname := hfit.namelen
  have hsize := hfit.size
  change (8 + f.descriptor.namelen.toNat + f.descriptor.size.toNat,
    ((s.writeBuffer f.descriptor.bytes 8).writeBuffer f.name.bytes
      f.descriptor.namelen.toNat).writeBuffer f.payload f.descriptor.size.toNat) = _
  rw [s.writeBuffer_all f.descriptor.bytes_length, BStream.writeBuffer_all _ hname.symm,
    BStream.writeBuffer_all _ hsize.symm, hname, hsize, Field.encode_length, hleaf,
    BStream.append_append, BStream.append_append, Field.encode, hleaf]
  simp

theorem BStream.patchSize_eq (s : BStream) {before after : List UInt8} {offs : Nat} (size : UInt32)
    (hbuf : s.buf = before ++ (LittleEndian.encode 4 0xFE ++ after))
    (hoffs : offs = after.length + 4) :
    s.patchSize offs size =
      .ok { s with buf := before ++ (LittleEndian.encode 4 size.toNat ++ after) } := by
  have hold : (LittleEndian.encode 4 0xFE).length = 4 := rfl
  have hlen : s.buf.length = before.length + offs := by
    rw [hbuf, hoffs]
    simp only [length_append, hold]
    omega
  have hdrop : s.buf.drop before.length = LittleEndian.encode 4 0xFE ++ after := by
    rw [hbuf, drop_left]
  simp only [BStream.patchSize, hlen, Nat.add_sub_cancel]
  rw [← drop_drop, hdrop, drop_left' hold, take_left' hold, hbuf, take_left,
    append_assoc, if_neg (by omega), if_neg (by decide)]

theorem BStream.writeObject_eq (s : BStream) {name : CString} {object : Streamable}
    {payload : List UInt8} (hfit : (Field.object name object.uuid payload).Fits)
    (hwrite : ∀ bytes, object.write (s.append bytes) =
      .ok (payload.length, s.append (bytes ++ payload))) :
    s.writeObject name object =
      .ok ((Field.object name object.uuid payload).encode.length,
        s.append (Field.object name object.uuid payload).encode) := by
  have hname : (UInt16.ofNat name.strlen).toNat = name.strlen := hfit.namelen
  have hsize : (UInt32.ofNat payload.length).toNat = payload.length := hfit.size
  have hoffs : payload.length + 16 + name.strlen + 4 =
      (name.bytes ++ (object.uuid.bytes ++ payload)).length + 4 := by
    simp only [length_append, object.uuid.size, CString.strlen]
    omega
  unfold BStream.writeObject
  simp only [hname]
  have hnamelen : name.bytes.length = name.strlen := rfl
  rw [s.writeBuffer_all (Descriptor.bytes_length _), BStream.writeBuffer_all _ hnamelen,
    BStream.writeBuffer_all _ object.uuid.size, BStream.append_append, BStream.append_append,
    hwrite]
  simp only [bind, Except.bind, hsize]
  have hbuf : (s.append (Descriptor.bytes ⟨Tag.object, 0, UInt16.ofNat name.strlen, 0xFE⟩ ++
      (name.bytes ++ object.uuid.bytes) ++ payload)).buf =
      s.buf ++ Tag.object :: 0 :: LittleEndian.encode 2 (UInt16.ofNat name.strlen).toNat ++
        (LittleEndian.encode 4 0xFE ++ (name.bytes ++ (object.uuid.bytes ++ payload))) := by
    simp [BStream.append, Descriptor.bytes]
  have hlen : (Field.object name object.uuid payload).encode.length =
      8 + name.strlen + 16 + payload.length := by
    rw [Field.encode_length]
    simp only [Field.name, Field.uuidBytes, Field.payload, object.uuid.size]
    omega
  rw [BStream.patchSize_eq _ _ hbuf hoffs, hlen]
  simp [BStream.append, Field.encode, Descriptor.bytes, Field.descriptor, Field.type, Field.name,
    Field.uuidBytes, Field.payload, pure, Except.pure]

/-! The induction over the tree: what is written is the format. -/

mutual

theorem write_record (r : Record) (hfit : r.All Field.Fits) (s : BStream) (hw : s.wordSize = 64) :
    r.write s = .ok (r.field.encode.length, s.append r.field.encode) := by
  cases r with
  | word name val =>
    simp only [Record.write, BStream.writeWord, hw]
    exact congrArg Except.ok (s.writeValue_eq (.word name val) hfit rfl)
  | double name bits => exact congrArg Except.ok (s.writeValue_eq (.double name bits) hfit rfl)
  | string name str => exact congrArg Except.ok (s.writeValue_eq (.string name str) hfit rfl)
  | bytes name blob => exact congrArg Except.ok (s.writeValue_eq (.bytes name blob) hfit rfl)
  | object name uuid children =>
    obtain ⟨hfit, hchildren⟩ := hfit
    refine s.writeObject_eq hfit fun bytes => ?_
    rw [← BStream.append_append]
    exact write_all children hchildren (s.append bytes) hw

theorem write_all (rs : List Record) (hfit : allOf Field.Fits rs) (s : BStream)
    (hw : s.wordSize = 64) :
    writeAll rs s = .ok ((encodeAll rs).length, s.append (encodeAll rs)) := by
  cases rs with
  | nil => simp [writeAll, encodeAll, BStream.append]
  | cons r rs =>
    obtain ⟨hr, hrs⟩ := hfit
    rw [writeAll, write_record r hr s hw]
    simp only [bind, Except.bind]
    rw [write_all rs hrs (s.append r.field.encode) hw]
    simp [encodeAll, BStream.append_append, pure, Except.pure]

end

theorem encode_length_pos (f : Field) : 0 < f.encode.length := by
  rw [Field.encode_length]
  omega

theorem encode_object_length (name : CString) (uuid : Uuid) (payload : List UInt8) :
    (Field.object name uuid payload).encode.length = objectHead name + payload.length := by
  rw [Field.encode_length]
  simp only [objectHead, Field.name, Field.uuidBytes, Field.payload, uuid.size]
  omega

theorem readLoop_cons {H : Type} {ev : Events H} {size nread n : Nat} {inp inp' : Input} {h h' : H}
    (hlt : nread < size) (hn : 0 < n) (hread : read (some ev) h inp = .ok (n, inp', h')) :
    readLoop ev size nread inp h = readLoop ev size (nread + n) inp' h' := by
  rw [readLoop, dif_pos hlt]
  simp only [hread]
  rw [dif_neg (Nat.ne_of_gt hn)]

theorem readLoop_error {H : Type} {ev : Events H} {size nread : Nat} {inp : Input} {h : H}
    {e : Fault} (hlt : nread < size) (hread : read (some ev) h inp = .error e) :
    readLoop ev size nread inp h = .error e := by
  rw [readLoop, dif_pos hlt]
  simp only [hread]

theorem readLoop_done {H : Type} {ev : Events H} {size : Nat} {inp : Input} {h : H} :
    readLoop ev size size inp h = .ok (size, inp, h) := by
  rw [readLoop, dif_neg (Nat.lt_irrefl size)]

theorem notify_collect (depth : Nat) (h : List Record) (r : Record)
    (hleaf : r.field.uuidBytes = []) : notify (some (collect depth)) h r.field = h ++ [r] := by
  cases r with
  | object name uuid children =>
    have huuid := uuid.size
    rw [show uuid.bytes = [] from hleaf] at huuid
    cases huuid
  | word name val => cases depth <;> rfl
  | double name bits => cases depth <;> rfl
  | string name str => cases depth <;> rfl
  | bytes name blob => cases depth <;> rfl

theorem collect_onObjectBegin (depth : Nat) (h : List Record) (inp : Input) (name : CString)
    (uuid : Uuid) (size : Nat) :
    (collect (depth + 1)).onObjectBegin h inp name uuid size =
      (readLoop (collect depth) size 0 inp []).map
        fun r => (r.1, r.2.1, h ++ [.object name uuid r.2.2]) := by
  simp only [collect, collector, bind, Except.bind]
  cases readLoop (collect depth) size 0 inp [] <;> rfl

theorem read_record_leaf (r : Record) (hleaf : r.field.uuidBytes = []) (hfit : r.field.Fits)
    {inp : Input} {tail : List UInt8} (hrest : inp.rest = r.field.encode ++ tail)
    (hmax : 2 ^ 16 ≤ inp.maxRead) (depth : Nat) (h : List Record) :
    Comes (r.field.Readable inp.maxRead)
      (r.field.encode.length, inp.advance r.field.encode.length, h ++ [r])
      (read (some (collect depth)) h inp) := by
  rw [← notify_collect depth h r hleaf]
  exact read_leaf _ h hfit hrest hmax hleaf

mutual

theorem read_record (r : Record) (hfit : r.All Field.Fits) {inp : Input} {tail : List UInt8}
    (hrest : inp.rest = r.field.encode ++ tail) (hmax : 2 ^ 16 ≤ inp.maxRead) {depth : Nat}
    (hdepth : r.field.encode.length ≤ depth) (h : List Record) :
    Comes (r.All (Field.Readable inp.maxRead))
      (r.field.encode.length, inp.advance r.field.encode.length, h ++ [r])
      (read (some (collect depth)) h inp) := by
  cases r with
  | word name val => exact read_record_leaf (.word name val) rfl hfit hrest hmax depth h
  | double name bits => exact read_record_leaf (.double name bits) rfl hfit hrest hmax depth h
  | string name str => exact read_record_leaf (.string name str) rfl hfit hrest hmax depth h
  | bytes name blob => exact read_record_leaf (.bytes name blob) rfl hfit hrest hmax depth h
  | object name uuid children =>
    obtain ⟨hfit, hfits⟩ := hfit
    have hlen := encode_object_length name uuid (encodeAll children)
    have hhead := objectHead_pos name
    simp only [Record.field] at hrest hdepth ⊢
    obtain ⟨depth, rfl⟩ : ∃ d, depth = d + 1 := ⟨depth - 1, by omega⟩
    have hloop := readLoop_all children hfits (rest_payload hrest) hmax (show _ ≤ depth by omega)
      (Nat.zero_add _) []
    rw [read_object_some h hfit hrest hmax, collect_onObjectBegin]
    generalize readLoop (collect depth) _ 0 _ [] = result at hloop ⊢
    cases hloop with
    | returned hreads =>
      rw [hlen, Input.advance_advance, nil_append]
      exact .of_ok ⟨trivial, hreads⟩ (afterBegin_accepted _ _ _ hfit.size _ _)
    | thrown hbad e => exact .thrown (fun hall => hbad hall.2) e

theorem readLoop_all (rs : List Record) (hfit : allOf Field.Fits rs) {inp : Input}
    {tail : List UInt8} (hrest : inp.rest = encodeAll rs ++ tail) (hmax : 2 ^ 16 ≤ inp.maxRead)
    {depth : Nat} (hdepth : (encodeAll rs).length ≤ depth) {size nread : Nat}
    (hsize : nread + (encodeAll rs).length = size) (acc : List Record) :
    Comes (allOf (Field.Readable inp.maxRead) rs)
      (size, inp.advance (encodeAll rs).length, acc ++ rs)
      (readLoop (collect depth) size nread inp acc) := by
  cases rs with
  | nil =>
    simp only [encodeAll, length_nil, Nat.add_zero] at hsize
    subst hsize
    rw [readLoop_done, append_nil]
    exact .returned trivial
  | cons r rs =>
    obtain ⟨hfit, hfits⟩ := hfit
    have hpos := encode_length_pos r.field
    simp only [encodeAll, length_append, append_assoc] at hrest hsize hdepth ⊢
    have hone := read_record r hfit hrest hmax (show _ ≤ depth by omega) acc
    by_cases hr : r.All (Field.Readable inp.maxRead)
    · have hrest' : (inp.advance r.field.encode.length).rest = encodeAll rs ++ tail := by
        rw [Input.advance_rest, hrest, drop_left]
      rw [readLoop_cons (by omega) hpos (hone.eq_ok hr), ← Input.advance_advance,
        append_cons]
      exact (readLoop_all rs hfits hrest' hmax (by omega) (by omega) _).congr
        (and_iff_right hr).symm
    · obtain ⟨e, he⟩ := hone.eq_error hr
      rw [readLoop_error (by omega) he]
      exact .thrown (fun hall => hr hall.1) e

end

/-- Writing `r` appends the format and returns its length; reading it back gives `r` and uses all
of it. -/
def RoundTrips (maxRead : Nat) (r : Record) : Prop :=
  ∀ s : BStream, s.wordSize = 64 → ∃ n bytes, r.write s = .ok (n, s.append bytes) ∧
    n = bytes.length ∧ bytes = r.field.encode ∧
    ∀ depth, n ≤ depth → read (some (collect depth)) [] ⟨bytes, 0, maxRead⟩ =
      .ok (n, ⟨[], n, maxRead⟩, [r])

theorem not_roundTrips_of_unreadable (r : Record) (hfit : r.All Field.Fits) {maxRead : Nat}
    (hmax : 2 ^ 16 ≤ maxRead) (hbad : ¬r.All (Field.Readable maxRead)) :
    ¬RoundTrips maxRead r := by
  intro htrip
  obtain ⟨n, bytes, -, hn, rfl, hback⟩ := htrip ⟨64, []⟩ rfl
  have hrest : (Input.mk r.field.encode 0 maxRead).rest = r.field.encode ++ [] :=
    (append_nil _).symm
  obtain ⟨e, he⟩ := (read_record r hfit hrest hmax (Nat.le_of_eq hn.symm) []).eq_error hbad
  have hok := hback n (Nat.le_refl n)
  rw [he] at hok
  cases hok

theorem round_trip_iff (r : Record) (hfit : r.All Field.Fits) {maxRead : Nat}
    (hmax : 2 ^ 16 ≤ maxRead) : RoundTrips maxRead r ↔ r.All (Field.Readable maxRead) := by
  constructor
  · intro htrip
    by_contra hbad
    exact not_roundTrips_of_unreadable r hfit hmax hbad htrip
  · intro hread s hw
    refine ⟨_, _, write_record r hfit s hw, rfl, rfl, fun depth hdepth => ?_⟩
    rw [(read_record r hfit (append_nil _).symm hmax hdepth []).eq_ok hread]
    simp [Input.advance]

def sample : Record :=
  .object noName ⟨List.replicate 16 1, rfl⟩
    [.word noName 258, .string noName ⟨[97, 98], by decide⟩,
      .object noName ⟨List.replicate 16 2, rfl⟩ []]

theorem round_trip_iff_sample : RoundTrips (2 ^ 16) sample :=
  (round_trip_iff sample
    (by refine ⟨?_, ?_, ?_, ⟨?_, trivial⟩, trivial⟩ <;> exact ⟨by decide, by decide⟩)
    (Nat.le_refl _)).mpr ⟨trivial, trivial, ⟨by decide, by decide⟩, ⟨trivial, trivial⟩, trivial⟩

def longString : CString where
  bytes := List.replicate (2 ^ 32 - 1) 97
  no_nul h := absurd (eq_of_mem_replicate h) (by decide)

theorem longString_strlen : longString.strlen = 2 ^ 32 - 1 := length_replicate

theorem long_string_not_read_back : ¬RoundTrips (2 ^ 64) (.string noName longString) := by
  have hfit : (Record.string noName longString).All Field.Fits :=
    ⟨by decide, longString_strlen.trans_lt (by decide)⟩
  refine not_roundTrips_of_unreadable _ hfit (by decide) fun hread => ?_
  have hlt : longString.strlen + 1 < 2 ^ 32 := hread.1
  rw [longString_strlen] at hlt
  exact absurd hlt (by decide)

end ZeroBugs.Dharma.Stream
