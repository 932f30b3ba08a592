import ZeroBugs.Lib.LittleEndian

/-! # Record streams -/
namespace ZeroBugs.Dharma.Stream
open Lib

/-- A C string without its terminating NUL. -/
structure CString where
  bytes : List UInt8
  no_nul : (0 : UInt8) ∉ bytes
  deriving DecidableEq

def CString.strlen (s : CString) : Nat := s.bytes.length

/-- The C string a pointer to `buf` denotes: all up to the first NUL. -/
def CString.ofBuffer (buf : List UInt8) : CString where
  bytes := buf.takeWhile (· != 0)
  no_nul h := by simpa using List.mem_takeWhile_imp h

structure Uuid where
  bytes : List UInt8
  size : bytes.length = 16
  deriving DecidableEq

def Uuid.ofBuffer (buf : List UInt8) : Uuid where
  bytes := (buf ++ List.replicate 16 0).take 16
  size := by simp

structure Descriptor where
  type : UInt8
  flags : UInt8
  namelen : UInt16
  size : UInt32
  deriving DecidableEq

def Descriptor.bytes (d : Descriptor) : List UInt8 :=
  d.type :: d.flags :: (LittleEndian.encode 2 d.namelen.toNat ++
    LittleEndian.encode 4 d.size.toNat)

def Descriptor.ofBuffer (buf : List UInt8) : Descriptor where
  type := buf.getD 0 0
  flags := buf.getD 1 0
  namelen := UInt16.ofNat (LittleEndian.decode ((buf.drop 2).take 2))
  size := UInt32.ofNat (LittleEndian.decode ((buf.drop 4).take 4))

namespace Tag

def null : UInt8 := 0
/-- `'i'` -/
def word : UInt8 := 105
/-- `'x'` -/
def word64 : UInt8 := 120
/-- `'d'` -/
def double : UInt8 := 100
/-- `'s'` -/
def string : UInt8 := 115
/-- `'o'` -/
def object : UInt8 := 111
/-- `'b'` -/
def bytes : UInt8 := 98

end Tag

/-- What ends a call other than a return. `typeOverride` is the `logic_error` of `set_object`,
whose text gives the name and, if there are two, the types. -/
inductive Fault where
  | runtimeError (msg : String)
  | typeOverride (name : CString) (types : Option (Uuid × Uuid))
  | assertion
  | overrun
  | nesting
  deriving DecidableEq

structure BStream where
  wordSize : Nat
  buf : List UInt8

def BStream.writeBuffer (s : BStream) (bytes : List UInt8) (count : Nat) : BStream :=
  { s with buf := s.buf ++ bytes.take count }

def BStream.writeValue (s : BStream) (type : UInt8) (name : CString) (size : UInt32)
    (payload : List UInt8) : Nat × BStream :=
  let desc : Descriptor := ⟨type, 0, UInt16.ofNat name.strlen, size⟩
  let s := s.writeBuffer desc.bytes 8
  let s := s.writeBuffer name.bytes desc.namelen.toNat
  let s := s.writeBuffer payload desc.size.toNat
  (8 + desc.namelen.toNat + desc.size.toNat, s)

def BStream.writeWord (s : BStream) (name : CString) (val : UInt64) : Nat × BStream :=
  s.writeValue (if s.wordSize = 64 then Tag.word64 else Tag.word) name
    (UInt32.ofNat (s.wordSize / 8)) (LittleEndian.encode 8 val.toNat)

def BStream.writeDouble (s : BStream) (name : CString) (bits : UInt64) : Nat × BStream :=
  s.writeValue Tag.double name 8 (LittleEndian.encode 8 bits.toNat)

def BStream.writeString (s : BStream) (name str : CString) : Nat × BStream :=
  s.writeValue Tag.string name (UInt32.ofNat str.strlen) str.bytes

def BStream.writeBytes (s : BStream) (name : CString) (bytes : List UInt8) : Nat × BStream :=
  s.writeValue Tag.bytes name (UInt32.ofNat bytes.length) bytes

/-- `Streamable`: its identity and what it writes, which returns the number of
bytes it says it wrote. -/
structure Streamable where
  uuid : Uuid
  write : BStream → Except Fault (Nat × BStream)

/-- Overwrite the placeholder size that starts `offs` bytes before the end of
the buffer. The source asserts that it is there. -/
def BStream.patchSize (s : BStream) (offs : Nat) (size : UInt32) : Except Fault BStream :=
  let start := s.buf.length - offs
  if s.buf.length < offs then .error .assertion
  else if LittleEndian.decode ((s.buf.drop start).take 4) ≠ 0xFE then .error .assertion
  else
    let buf := s.buf.take start ++ LittleEndian.encode 4 size.toNat ++ s.buf.drop (start + 4)
    .ok { s with buf := buf }

/-- `BStream::write_object`: a placeholder size, the object's own writes, then
the size patched in at its distance from the end of the buffer. -/
def BStream.writeObject (s : BStream) (name : CString) (object : Streamable) :
    Except Fault (Nat × BStream) := do
  let desc : Descriptor := ⟨Tag.object, 0, UInt16.ofNat name.strlen, 0xFE⟩
  let s := s.writeBuffer desc.bytes 8
  let s := s.writeBuffer name.bytes desc.namelen.toNat
  let s := s.writeBuffer object.uuid.bytes 16
  let (written, s) ← object.write s
  let size := UInt32.ofNat written
  let skip := size.toNat + 16 + desc.namelen.toNat
  let s ← s.patchSize (skip + 4) size
  return (8 + desc.namelen.toNat + 16 + size.toNat, s)

/-- The file a `CStream` reads: what is left of it, the position, and the most
bytes one `read` system call transfers. -/
structure Input where
  rest : List UInt8
  pos : Nat
  maxRead : Nat

def Input.advance (inp : Input) (n : Nat) : Input :=
  { inp with rest := inp.rest.drop n, pos := inp.pos + n }

/-- `CStream::read_buffer` into a cleared buffer of `room` bytes: the buffer, the number read, and
the file. A short read other than end of file is an error. -/
def Input.readBuffer (inp : Input) (room count : Nat) :
    Except Fault (List UInt8 × Nat × Input) :=
  let rc := min count (min inp.maxRead inp.rest.length)
  if room < count then .error .overrun
  else if rc ≠ 0 ∧ rc ≠ count then
    .error (.runtimeError
      ("read_buffer: expected " ++ toString count ++ ", got: " ++ toString rc))
  else .ok (inp.rest.take rc ++ List.replicate (count - rc) 0, rc, inp.advance rc)

/-- `InputStreamEvents`, with the state of the handler explicit.
`on_object_begin` may read from the stream. -/
structure Events (H : Type) where
  onWord : H → CString → UInt64 → H
  onDouble : H → CString → UInt64 → H
  onString : H → CString → CString → H
  onBytes : H → CString → List UInt8 → H
  onObjectBegin : H → Input → CString → Uuid → Nat → Except Fault (Nat × Input × H)
  onOpaque : H → CString → Uuid → List UInt8 → H

/-- `CStream::read_object`. `name` is the buffer the name was read into. -/
def readObject {H : Type} (events : Option (Events H)) (h : H) (desc : Descriptor)
    (name : List UInt8) (inp : Input) : Except Fault (Nat × Input × H) := do
  let (buf, bytesRead, inp) ← inp.readBuffer 16 16
  let uuid := Uuid.ofBuffer buf
  match events with
  | none => return (bytesRead, inp, h)
  | some ev =>
    let (tmp, inp, h) ← ev.onObjectBegin h inp (.ofBuffer name) uuid desc.size.toNat
    if tmp ≠ 0 then return (bytesRead + tmp, inp, h)
    else if desc.size.toNat ≠ 0 then
      let header := desc.bytes ++ name.take desc.namelen.toNat ++ uuid.bytes
      let (payload, _, inp) ← inp.readBuffer desc.size.toNat desc.size.toNat
      let opaqueBytes := header ++ payload
      return (bytesRead + opaqueBytes.length, inp, ev.onOpaque h (.ofBuffer name) uuid opaqueBytes)
    else return (bytesRead, inp, h)

/-- The cases `'i'`, `'x'` and `'d'` of `Stream::read`, which differ in the
event and in the message. -/
def readFixed {H : Type} (msg : String) (event : Option (UInt64 → H)) (h : H)
    (desc : Descriptor) (inp : Input) : Except Fault (Nat × Input × H) := do
  if desc.size.toNat ≠ 8 then throw (.runtimeError msg)
  let (buf, n, inp) ← inp.readBuffer 8 8
  let val := UInt64.ofNat (LittleEndian.decode buf)
  return (n, inp, (event.map (· val)).getD h)

/-- The `switch` of `Stream::read`. The string's buffer has `desc.size + 1`
bytes, computed in 32 bits. -/
def readValue {H : Type} (events : Option (Events H)) (h : H) (desc : Descriptor)
    (name : List UInt8) (inp : Input) : Except Fault (Nat × Input × H) := do
  let cname := CString.ofBuffer name
  if desc.type = Tag.null then return (0, inp, h)
  else if desc.type = Tag.word then
    readFixed "read: invalid WORD" (events.map fun ev => ev.onWord h cname) h desc inp
  else if desc.type = Tag.word64 then
    readFixed "read: invalid int64" (events.map fun ev => ev.onWord h cname) h desc inp
  else if desc.type = Tag.double then
    readFixed "read: invalid DOUBLE" (events.map fun ev => ev.onDouble h cname) h desc inp
  else if desc.type = Tag.string then
    let (sval, n, inp) ← inp.readBuffer (desc.size + 1).toNat desc.size.toNat
    return (n, inp, (events.map fun ev => ev.onString h cname (.ofBuffer sval)).getD h)
  else if desc.type = Tag.object then readObject events h desc name inp
  else if desc.type = Tag.bytes then
    let (bytes, n, inp) ← inp.readBuffer desc.size.toNat desc.size.toNat
    return (n, inp, (events.map fun ev => ev.onBytes h cname bytes).getD h)
  else throw (.runtimeError "read: unknown descriptor")

def read {H : Type} (events : Option (Events H)) (h : H) (inp : Input) :
    Except Fault (Nat × Input × H) := do
  let (buf, n, inp) ← inp.readBuffer 8 8
  if n = 0 then return (0, inp, h)
  let desc := Descriptor.ofBuffer buf
  let (name, k, inp) ← inp.readBuffer (desc.namelen.toNat + 1) desc.namelen.toNat
  let (m, inp, h) ← readValue events h desc name inp
  return (n + k + m, inp, h)

/-- The loop of `Settings::on_object_begin`: read records until `size` bytes
are accounted for, or nothing is read. -/
def readLoop {H : Type} (ev : Events H) (size nread : Nat) (inp : Input) (h : H) :
    Except Fault (Nat × Input × H) :=
  if _ : nread < size then
    match read (some ev) h inp with
    | .error e => .error e
    | .ok (n, inp', h') =>
      if _ : n = 0 then .ok (nread, inp', h') else readLoop ev size (nread + n) inp' h'
  else .ok (nread, inp, h)
termination_by size - nread

inductive Field where
  | word (name : CString) (val : UInt64)
  | double (name : CString) (bits : UInt64)
  | string (name str : CString)
  | bytes (name : CString) (bytes : List UInt8)
  | object (name : CString) (uuid : Uuid) (payload : List UInt8)

namespace Field

def name : Field → CString
  | .word name _ | .double name _ | .string name _ | .bytes name _ | .object name _ _ => name

def type : Field → UInt8
  | .word .. => Tag.word64
  | .double .. => Tag.double
  | .string .. => Tag.string
  | .bytes .. => Tag.bytes
  | .object .. => Tag.object

def payload : Field → List UInt8
  | .word _ val => LittleEndian.encode 8 val.toNat
  | .double _ bits => LittleEndian.encode 8 bits.toNat
  | .string _ str => str.bytes
  | .bytes _ blob => blob
  | .object _ _ content => content

def uuidBytes : Field → List UInt8
  | .object _ uuid _ => uuid.bytes
  | _ => []

def descriptor (f : Field) : Descriptor :=
  ⟨f.type, 0, UInt16.ofNat f.name.strlen, UInt32.ofNat f.payload.length⟩

def encode (f : Field) : List UInt8 :=
  f.descriptor.bytes ++ (f.name.bytes ++ (f.uuidBytes ++ f.payload))

def Fits (f : Field) : Prop := f.name.strlen < 2 ^ 16 ∧ f.payload.length < 2 ^ 32

/-- A string or byte block the reader's buffer has room for and that one system
call transfers. -/
def Readable (maxRead : Nat) : Field → Prop
  | .string _ str => str.strlen + 1 < 2 ^ 32 ∧ str.strlen ≤ maxRead
  | .bytes _ blob => blob.length ≤ maxRead
  | _ => True

end Field

inductive Record where
  | word (name : CString) (val : UInt64)
  | double (name : CString) (bits : UInt64)
  | string (name str : CString)
  | bytes (name : CString) (bytes : List UInt8)
  | object (name : CString) (uuid : Uuid) (children : List Record)

mutual

def Record.field : Record → Field
  | .word name val => .word name val
  | .double name bits => .double name bits
  | .string name str => .string name str
  | .bytes name bytes => .bytes name bytes
  | .object name uuid children => .object name uuid (encodeAll children)

def encodeAll : List Record → List UInt8
  | [] => []
  | r :: rs => r.field.encode ++ encodeAll rs

end

mutual

def Record.All (P : Field → Prop) : Record → Prop
  | .object name uuid children => P (.object name uuid (encodeAll children)) ∧ allOf P children
  | .word name val => P (.word name val)
  | .double name bits => P (.double name bits)
  | .string name str => P (.string name str)
  | .bytes name bytes => P (.bytes name bytes)

def allOf (P : Field → Prop) : List Record → Prop
  | [] => True
  | r :: rs => r.All P ∧ allOf P rs

end

mutual

/-- Write a record through the stream's interface; an object writes its
children in order and returns the sum. -/
def Record.write : Record → BStream → Except Fault (Nat × BStream)
  | .word name val, s => .ok (s.writeWord name val)
  | .double name bits, s => .ok (s.writeDouble name bits)
  | .string name str, s => .ok (s.writeString name str)
  | .bytes name bytes, s => .ok (s.writeBytes name bytes)
  | .object name uuid children, s => s.writeObject name ⟨uuid, writeAll children⟩

def writeAll : List Record → BStream → Except Fault (Nat × BStream)
  | [], s => .ok (0, s)
  | r :: rs, s => do
    let (n, s) ← r.write s
    let (k, s) ← writeAll rs s
    return (n + k, s)

end

/-- The handler that keeps the records it is told of, with the given way to
read an object's children. -/
def collector (readChildren : Nat → Input → Except Fault (Nat × Input × List Record)) :
    Events (List Record) where
  onWord h name val := h ++ [.word name val]
  onDouble h name bits := h ++ [.double name bits]
  onString h name str := h ++ [.string name str]
  onBytes h name bytes := h ++ [.bytes name bytes]
  onObjectBegin h inp name uuid size := do
    let (nread, inp, children) ← readChildren size inp
    return (nread, inp, h ++ [.object name uuid children])
  onOpaque h _ _ _ := h

/-- The handler that accepts every object and reads it with a handler of the
same kind, down to `depth` levels. -/
def collect : Nat → Events (List Record)
  | 0 => collector fun _ _ => .error .nesting
  | depth + 1 => collector fun size inp => readLoop (collect depth) size 0 inp []

end ZeroBugs.Dharma.Stream
