import PvfsProxy.Message

/-!
# Request parsing

`dump.c` and its caller in `message.c`: how a request is taken apart. None of
the functions is told how long the message is, so a read may leave it; here
every read is checked, and one that leaves the message is the fault `outside`.

`dumpHeader2` finds the I/O type, `dumpHeader` what the schedulers want to
know of an I/O request, `dumpMetaHeader` the same of a metadata operation.
`parseRequest` is `check_request` as far as it reads: the BMI header, the
message behind it, and whichever of the three the operation calls for.

An offset is an `int`. It grows by what has been read, which stays below the
length of the message, with one exception: the nested requests are skipped by
their number alone, and there the sum wraps.
-/

namespace PvfsProxy

inductive DumpFault where
  /-- a byte that is not part of the message is read -/
  | outside
  | exit (code : Int)
deriving Repr, DecidableEq

/-! ## Reading -/

/-- The field of so many bytes at `pos`, whatever the length of the buffer. -/
def param (buffer : List UInt8) (pos : Int) (length : Nat) : Int :=
  outputParam buffer pos.toNat length

/-- `output_param` -/
def readParam (buffer : List UInt8) (pos : Int) (length : Nat) : Except DumpFault Int :=
  if 0 ≤ pos ∧ pos + length ≤ buffer.length then .ok (param buffer pos length)
  else .error .outside

/-- `memcpy` out of the buffer. A negative length is a huge one. -/
def readBytes (buffer : List UInt8) (pos length : Int) : Except DumpFault (List UInt8) :=
  if 0 ≤ pos ∧ 0 ≤ length ∧ pos + length ≤ buffer.length then
    .ok ((buffer.drop pos.toNat).take length.toNat)
  else .error .outside

/-- The characters of a C string. -/
def cChars (s : List UInt8) : List UInt8 := s.takeWhile (· ≠ 0)

/-- `strlen` -/
def readStrlen (buffer : List UInt8) (pos : Int) : Except DumpFault Int :=
  if 0 ≤ pos ∧ 0 ∈ buffer.drop pos.toNat then .ok (cChars (buffer.drop pos.toNat)).length
  else .error .outside

/-! ## Hints -/

def pintHintHandle : Int := 3

/-- One turn of a hint loop. `offset` and `length` are those of the field
before; the value of the hint becomes the field to step over next. Only
`dump_meta_header` reads it. -/
def hintTurn (values : Bool) (buffer : List UInt8) (offset : Int) (length : Nat) :
    Except DumpFault (Int × Nat) := do
  let offset := offset + length
  let hintType ← readParam buffer offset 4
  let offset := offset + 4
  let length := if hintType = pintHintHandle then 8 else 4
  if values then
    let _ ← readParam buffer offset length
    return (offset, length)
  else return (offset, length)

def hintLoop (values : Bool) (buffer : List UInt8) : Nat → Int → Nat → Except DumpFault Int
  | 0, offset, length => return offset + length
  | count + 1, offset, length => do
    let (offset, length) ← hintTurn values buffer offset length
    hintLoop values buffer count offset length

def dumpHints (values : Bool) (buffer : List UInt8) : Except DumpFault Int := do
  let hintCount ← readParam buffer 48 4
  hintLoop values buffer hintCount.toNat 48 4

/-! ## I/O requests -/

def dumpIoRequest2 (buffer : List UInt8) (offset : Int) (small : Bool) :
    Except DumpFault Int := do
  let ioType ← readParam buffer (if small then offset + 12 else offset + 16) 4
  return toInt32 ioType

def dumpHeader2 (buffer : List UInt8) (small : Bool) : Except DumpFault Int := do
  let offset ← dumpHints false buffer
  dumpIoRequest2 buffer offset small

/-- `struct dist` as `dump_IO_Request` leaves it: the fields some requests do
not set are `none` there. -/
structure DumpedDist where
  currentServerNumber : Int
  totalServerNumber : Int
  distName : List UInt8
  stripeSize : Option Int
  aggregateSize : Int
  dataFileOffset : Int
  smallTotal : Option Int
deriving Repr, DecidableEq

def basicDist : List UInt8 := [98, 97, 115, 105, 99, 95, 100, 105, 115, 116]

def varstripDist : List UInt8 := [118, 97, 114, 115, 116, 114, 105, 112, 95, 100, 105, 115, 116]

def simpleStripe : List UInt8 := [115, 105, 109, 112, 108, 101, 95, 115, 116, 114, 105, 112, 101]

def twodStripe : List UInt8 := [116, 119, 111, 100, 95, 115, 116, 114, 105, 112, 101]

/-- The name of the distribution, its length in front: where its padding ends,
and its characters. -/
def dumpDistName (buffer : List UInt8) (offset : Int) : Except DumpFault (Int × List UInt8) := do
  let stringLength ← readParam buffer offset 4
  let distName ← readBytes buffer (offset + 4) (toInt32 stringLength)
  let totalLength := toInt32 stringLength + 4
  let mul := totalLength - totalLength / 8 * 8
  let p1 := if mul ≠ 0 then 8 - mul else 0
  return (offset + 4 + toInt32 stringLength + p1, cChars distName)

/-- The parameters of the distribution: where they end, and the stripe size
where it is kept. -/
def dumpDistribution (buffer : List UInt8) (offset : Int) (distName : List UInt8) :
    Except DumpFault (Int × Option Int) :=
  if distName = basicDist then .ok (offset, none)
  else if distName = varstripDist then do
    let length ← readStrlen buffer offset
    let padding := (8 - length % 8) % 8
    return (offset + length + padding, none)
  else if distName = simpleStripe then do
    let stripeSize ← readParam buffer offset 8
    return (offset + 8, some (toInt32 stripeSize))
  else if distName = twodStripe then do
    let _ ← readParam buffer offset 4
    let _ ← readParam buffer (offset + 4) 8
    return (offset + 4 + 8 + 4, none)
  else .error (.exit (-1))

/-- The fields behind the nested requests: file offset, aggregate size and the
bytes of a small I/O. -/
def dumpSizes (buffer : List UInt8) (offset : Int) (small : Bool) :
    Except DumpFault (Int × Int × Option Int) := do
  let fileReqOffset ← readParam buffer offset 8
  let aggregateSize ← readParam buffer (offset + 8) 8
  if small then
    let totalBytes ← readParam buffer (offset + 8 + 8) 8
    return (toUInt64 fileReqOffset, toUInt64 aggregateSize, some (toInt32 totalBytes))
  else return (toUInt64 fileReqOffset, toUInt64 aggregateSize, none)

def dumpIoRequest (buffer : List UInt8) (offset : Int) (small : Bool) :
    Except DumpFault DumpedDist := do
  let offset := if small then offset + 16 else offset + 24
  let relativeServerNum ← readParam buffer offset 4
  let totalServerNum ← readParam buffer (offset + 4) 4
  let name ← dumpDistName buffer (offset + 8)
  let params ← dumpDistribution buffer name.1 name.2
  let numNestedReq ← readParam buffer params.1 4
  let sizes ← dumpSizes buffer (toInt32 (params.1 + 4 + 4 + (numNestedReq + 1) * 80)) small
  return {
    currentServerNumber := toInt32 relativeServerNum
    totalServerNumber := toInt32 totalServerNum
    distName := name.2
    stripeSize := params.2
    aggregateSize := sizes.2.1
    dataFileOffset := sizes.1
    smallTotal := sizes.2.2 }

/-- `PVFS_SERV_IO` and `PVFS_SERV_SMALL_IO` -/
def isIoOp (op : PvfsServerOp) : Bool := op == .io || op == .smallIo

/-- `dump_header` on a request; `none` for the null pointer. -/
def dumpHeader (buffer : List UInt8) : Except DumpFault (Option DumpedDist) := do
  let _ ← readParam buffer 16 8
  let operation ← readParam buffer 32 4
  let op := PvfsServerOp.ofCode operation
  if isIoOp op then
    let offset ← dumpHints false buffer
    let dist ← dumpIoRequest buffer offset (op == .smallIo)
    return some dist
  else return none

/-! ## Metadata requests -/

/-- `dump_string`: where the string and its padding end. -/
def dumpString (buffer : List UInt8) (offset : Int) : Except DumpFault Int := do
  let stringSize ← readParam buffer offset 4
  let size := toInt32 stringSize
  let _ ← readBytes buffer (offset + 4) size
  let leftOver := (4 + size) % 8
  let padding := if leftOver > 0 then 8 - leftOver else 0
  return offset + 4 + size + padding

/-- A section that is there only under a condition. -/
def dumpWhen (present : Prop) [Decidable present] (walk : Int → Except DumpFault Int)
    (offset : Int) : Except DumpFault Int :=
  if present then walk offset else pure offset

/-- One field, and where what comes with it ends. -/
def dumpField (buffer : List UInt8) (length total : Nat) (offset : Int) :
    Except DumpFault Int := do
  let _ ← readParam buffer offset length
  return offset + total

/-- `struct attr_plus`; of the mask only bits are looked at. -/
structure AttrPlus where
  createDsType : Int
  attrMask : Nat
deriving Repr, DecidableEq

def dumpAttribute (buffer : List UInt8) (offset : Int) : Except DumpFault (Int × AttrPlus) := do
  let offset ← dumpField buffer 4 4 offset -- uid
  let offset ← dumpField buffer 4 4 offset -- gid
  let offset ← dumpField buffer 4 8 offset -- permissions
  let offset ← dumpField buffer 8 8 offset -- atime
  let offset ← dumpField buffer 8 8 offset -- mtime
  let offset ← dumpField buffer 8 8 offset -- ctime
  let attrMask ← readParam buffer offset 4
  let dsType ← readParam buffer (offset + 4) 4
  return (offset + 8, { createDsType := toInt32 dsType, attrMask := attrMask.toNat })

def pvfsTypeMetafile : Int := 1

/-- `PVFS_ATTR_META_DIST`, by the number of its bit. -/
def attrMetaDist : Nat := 10

def attrMetaDfiles : Nat := 11

def attrMetaUnstuffed : Nat := 12

def attrDataSize : Nat := 15

def attrSymlnkTarget : Nat := 18

def attrDirDirentCount : Nat := 19

def attrDirHint : Nat := 20

def dumpMetaDist (buffer : List UInt8) (offset : Int) : Except DumpFault Int := do
  let offset ← dumpString buffer offset
  dumpField buffer 8 8 offset -- stripe size

def dumpHandles (buffer : List UInt8) : Nat → Int → Except DumpFault Int
  | 0, offset => return offset
  | count + 1, offset => do
    let offset ← dumpField buffer 8 8 offset
    dumpHandles buffer count offset

def dumpMetaDfiles (buffer : List UInt8) (offset : Int) : Except DumpFault Int := do
  let dfileCount ← readParam buffer offset 4
  -- the count is an `int`, and a negative one is no turn at all
  let offset ← dumpHandles buffer (toInt32 dfileCount).toNat (offset + 8)
  dumpField buffer 8 8 offset -- hint

def dumpSymlnkTarget (buffer : List UInt8) (offset : Int) : Except DumpFault Int := do
  let offset ← dumpField buffer 4 8 offset -- path length
  dumpString buffer offset

def dumpDirHint (buffer : List UInt8) (offset : Int) : Except DumpFault Int := do
  let offset ← dumpField buffer 8 8 offset -- dirent count
  let offset ← dumpField buffer 4 8 offset -- dist name len
  let offset ← dumpString buffer offset
  let offset ← dumpField buffer 4 8 offset -- dist param len
  let offset ← dumpString buffer offset
  dumpField buffer 4 4 offset -- data file count

def dumpAttributePlus (buffer : List UInt8) (plus : AttrPlus) (offset : Int) :
    Except DumpFault Int := do
  let offset ← dumpWhen
    (plus.createDsType = pvfsTypeMetafile ∧ ¬ plus.attrMask.testBit attrMetaUnstuffed)
    (dumpField buffer 4 8) offset -- stuffed size
  let offset ← dumpWhen (plus.attrMask.testBit attrMetaDist) (dumpMetaDist buffer) offset
  let offset ← dumpWhen (plus.attrMask.testBit attrMetaDfiles) (dumpMetaDfiles buffer) offset
  let offset ← dumpWhen (plus.attrMask.testBit attrDataSize) (dumpField buffer 8 8) offset
  let offset ← dumpWhen (plus.attrMask.testBit attrSymlnkTarget) (dumpSymlnkTarget buffer) offset
  dumpWhen (plus.attrMask.testBit attrDirDirentCount ∨ plus.attrMask.testBit attrDirHint)
    (dumpDirHint buffer) offset

def dumpAttributes (buffer : List UInt8) (offset : Int) : Except DumpFault Int := do
  let (offset, plus) ← dumpAttribute buffer offset
  dumpAttributePlus buffer plus offset

def pvfsSysLayoutList : Int := 4

def dumpCreate (buffer : List UInt8) (offset : Int) : Except DumpFault Int := do
  let offset ← dumpField buffer 4 8 offset -- fs id
  let offset ← dumpAttributes buffer offset
  let offset ← dumpField buffer 4 4 offset -- number of data files asked for
  let layoutAlgo ← readParam buffer offset 4
  let offset ← dumpField buffer 4 8 (offset + 8) -- server list count
  dumpWhen (toInt32 layoutAlgo = pvfsSysLayoutList) (dumpString buffer) offset

def dumpMkdir (buffer : List UInt8) (offset : Int) : Except DumpFault Int := do
  let offset ← dumpField buffer 4 8 offset -- fs id
  let offset ← dumpAttributes buffer offset
  dumpField buffer 4 4 (offset + 4) -- extent count

/-- What `memset` leaves in a `struct meta`. -/
def zeroMeta : MetaHeader where
  handle := 0
  fsid := 0
  mask := 0

def dumpMetaBody (buffer : List UInt8) (offset : Int) : PvfsServerOp → Except DumpFault MetaHeader
  | .getattr => do
    let handle ← readParam buffer offset 8
    let offset ← dumpField buffer 4 4 (offset + 8) -- fs id
    let mask ← readParam buffer offset 4
    return { zeroMeta with handle := toUInt64 handle, mask := toUInt64 (toInt32 mask) }
  | .readdir => do
    let offset ← dumpField buffer 8 8 offset -- handle
    let offset ← dumpField buffer 4 4 offset -- fs id
    let offset ← dumpField buffer 4 4 offset -- entry count
    let _ ← dumpField buffer 8 8 offset -- position
    return zeroMeta
  | .listattr => do
    let offset ← dumpField buffer 4 4 offset -- fs id
    let offset ← dumpField buffer 4 8 offset -- mask
    let _ ← dumpField buffer 4 4 offset -- number of handles
    return zeroMeta
  | .create => do
    let _ ← dumpCreate buffer offset
    return zeroMeta
  | .statfs => do
    let _ ← dumpField buffer 4 8 offset -- fs id
    return zeroMeta
  | .crdirent => do
    let offset ← dumpString buffer offset
    let offset ← dumpField buffer 8 8 offset -- new handle
    let offset ← dumpField buffer 8 8 offset -- parent handle
    let _ ← dumpField buffer 4 4 offset -- fs id
    return zeroMeta
  | .rmdirent => do
    let offset ← dumpString buffer offset
    let offset ← dumpField buffer 8 8 offset -- parent handle
    let _ ← dumpField buffer 4 4 offset -- fs id
    return zeroMeta
  | .lookupPath => do
    let offset ← dumpString buffer offset
    let offset ← dumpField buffer 4 8 offset -- fs id
    let offset ← dumpField buffer 8 8 offset -- parent handle
    let _ ← dumpField buffer 4 4 offset -- mask
    return zeroMeta
  | .mkdir => do
    let _ ← dumpMkdir buffer offset
    return zeroMeta
  | .getconfig => return zeroMeta
  | .remove => do
    let handle ← readParam buffer offset 8
    let fsId ← readParam buffer (offset + 8) 4
    return { zeroMeta with handle := toUInt64 handle, fsid := toInt32 fsId }
  | _ => .error (.exit (-1))

def dumpMetaHeader (buffer : List UInt8) : Except DumpFault MetaHeader := do
  let _ ← readParam buffer 16 8
  let operation ← readParam buffer 32 4
  let offset ← dumpHints true buffer
  dumpMetaBody buffer offset (.ofCode operation)

/-! ## `check_request` -/

/-- What `check_request` makes of the bytes it sees. -/
inductive ParsedRequest where
  /-- too few bytes, or a message that continues an operation: nothing is parsed -/
  | unparsed
  | io (ioType : Int) (dist : Option DumpedDist)
  | metadata (header : MetaHeader)
  | other
deriving Repr, DecidableEq

/-- The message the second peek gets: `eheader` is an `int`, and the message is
parsed where `recv` returns exactly that many bytes. -/
def peekMessage (visible : List UInt8) (size : Int) : Option (List UInt8) :=
  let eheader := toInt32 (size + bmiHeaderLength)
  if 0 ≤ eheader ∧ eheader ≤ visible.length then some (visible.take eheader.toNat) else none

/-- Whether an I/O request goes to the scheduler. -/
def schedulesIo (schedulerOn small : Bool) (ioType : Int) : Bool :=
  schedulerOn && (ioType == pvfsIoWrite || small || ioType == pvfsIoRead)

/-- The I/O branch: the type of every request, the rest of those that are scheduled. -/
def parseIo (schedulerOn : Bool) (message : List UInt8) (small : Bool) :
    Except DumpFault ParsedRequest := do
  let ioType ← dumpHeader2 message small
  if schedulesIo schedulerOn small ioType then
    let dist ← dumpHeader message
    return .io ioType dist
  else return .io ioType none

/-- A message that is wholly there. -/
def parseMessage (schedulerOn acceptMeta : Bool) (message : List UInt8) :
    Except DumpFault ParsedRequest := do
  let operation ← readParam message 32 4
  let op := PvfsServerOp.ofCode operation
  if isIoOp op then parseIo schedulerOn message (op == .smallIo)
  else if schedulerOn && acceptMeta && isMeta op then
    let header ← dumpMetaHeader message
    return .metadata header
  else return .other

/-- `check_request` as far as it reads the bytes on the socket. Whether a
message `continues` an operation is told by its tag. -/
def parseRequest (schedulerOn acceptMeta : Bool) (continues : Int → Bool) (visible : List UInt8) :
    Except DumpFault ParsedRequest := do
  if getBmiHeader visible ≠ bmiHeaderLength then return .unparsed
  let header := visible.take bmiHeaderLength.toNat
  let tag ← readParam header 8 8
  let size ← readParam header 16 8
  if continues tag then return .unparsed
  match peekMessage visible size with
  | none => return .unparsed
  | some message => parseMessage schedulerOn acceptMeta message

end PvfsProxy
