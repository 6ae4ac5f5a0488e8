import PvfsProxy.DumpBounds
import Mathlib.Tactic.LinearCombination
import Mathlib.Tactic.Linarith
import Mathlib.Tactic.Positivity

/-!
# Encoding an I/O request

An I/O request as the client writes it down, field by field as `dump.c` notes
the layout, and that `dumpHeader2` and `dumpHeader` find its fields again
(`io_request_decoded`). The two walk over the hints separately and both have
to arrive at the body.

The fields are in the range of the C types that hold them (`CInt`,
`CULongLong`). The length of the encoding is an `int`, as it is in the one
caller there is.
-/

namespace PvfsProxy

open Formats

/-! ## Numbers -/

/-- The low `n` bytes of a number, the lowest first. -/
def leBytes : Nat → Int → List UInt8
  | 0, _ => []
  | n + 1, v => UInt8.ofNat (v % 256).toNat :: leBytes n (v / 256)

@[simp] theorem length_leBytes (n : Nat) (v : Int) : (leBytes n v).length = n := by
  induction n generalizing v with
  | zero => rfl
  | succ n ih => simp [leBytes, ih]

theorem emod_256_mul (v m : Int) (hm : 0 < m) :
    v % (256 * m) = v % 256 + 256 * (v / 256 % m) := by
  have hv := Int.mul_ediv_add_emod v 256
  have hq := Int.mul_ediv_add_emod (v / 256) m
  have h₀ := Int.emod_nonneg v (show (256 : Int) ≠ 0 by decide)
  have h₁ := Int.emod_lt_of_pos v (show (0 : Int) < 256 by decide)
  have h₂ := Int.emod_nonneg (v / 256) hm.ne'
  have h₃ := Int.emod_lt_of_pos (v / 256) hm
  refine ((Int.ediv_emod_unique (show 0 < 256 * m by omega) (q := v / 256 / m)).mpr
    ⟨by linear_combination hv + 256 * hq, ?_, ?_⟩).2
  · positivity
  · linarith

theorem leNat_leBytes (n : Nat) (v : Int) : (leNat (leBytes n v) : Int) = v % 256 ^ n := by
  induction n generalizing v with
  | zero => simp [leBytes, leNat]
  | succ n ih =>
    have h₀ := Int.emod_nonneg v (show (256 : Int) ≠ 0 by decide)
    have h₁ := Int.emod_lt_of_pos v (show (0 : Int) < 256 by decide)
    rw [leBytes, leNat, Int.pow_succ', emod_256_mul v _ (by positivity), ← ih (v / 256)]
    have hbyte : (UInt8.ofNat (v % 256).toNat).toNat = (v % 256).toNat := by
      rw [UInt8.toNat_ofNat']
      omega
    rw [hbyte]
    push_cast
    omega

def CInt : Type := { z : Int // -2 ^ 31 ≤ z ∧ z < 2 ^ 31 }

def CULongLong : Type := { z : Int // 0 ≤ z ∧ z < 2 ^ 64 }

section Param

variable {msg : List UInt8} {p v : Int}

theorem param_four (h : SitsAt msg p (leBytes 4 v)) : param msg p 4 = v % 2 ^ 32 := by
  have htake := h.take
  rw [length_leBytes] at htake
  rw [param, outputParam, htake, leNat_leBytes]
  simp

theorem param_eight (h : SitsAt msg p (leBytes 8 v)) : param msg p 8 = v.bmod (2 ^ 64) := by
  have htake := h.take
  rw [length_leBytes] at htake
  rw [param, outputParam, htake, leNat_leBytes, if_pos rfl]
  exact Int.emod_bmod v (2 ^ 64)

theorem toInt32_param_four {z : CInt} (h : SitsAt msg p (leBytes 4 z.1)) :
    toInt32 (param msg p 4) = z.1 := by
  have h₀ := z.2.1
  have h₁ := z.2.2
  rw [param_four h]
  exact (Int.emod_bmod z.1 (2 ^ 32)).trans (Int.bmod_eq_of_le (by omega) (by omega))

theorem toInt32_param_eight {z : CInt} (h : SitsAt msg p (leBytes 8 z.1)) :
    toInt32 (param msg p 8) = z.1 := by
  have h₀ := z.2.1
  have h₁ := z.2.2
  rw [param_eight h, Int.bmod_eq_of_le (by omega) (by omega)]
  exact Int.bmod_eq_of_le (by omega) (by omega)

theorem toUInt64_param_eight {z : CULongLong} (h : SitsAt msg p (leBytes 8 z.1)) :
    toUInt64 (param msg p 8) = z.1 := by
  rw [param_eight h]
  exact (Int.bmod_emod (x := z.1) (m := 2 ^ 64)).trans (Int.emod_eq_of_lt z.2.1 z.2.2)

end Param

/-! ## The layout -/

/-- A hint on the wire. -/
inductive Hint where
  | handle (value : Int)
  | other (hintType : Int) (value : Int) (h : hintType % 2 ^ 32 ≠ pintHintHandle)

def Hint.encode : Hint → List UInt8
  | .handle value => leBytes 4 pintHintHandle ++ leBytes 8 value
  | .other hintType value _ => leBytes 4 hintType ++ leBytes 4 value

/-- One of the blocks a request and its nested requests are written as. -/
def RequestBlock : Type := { block : List UInt8 // block.length = 80 }

/-- An I/O request with a `simple_stripe` distribution. -/
structure IoRequest where
  small : Bool
  magic : Int
  mode : Int
  tag : Int
  version : Int
  encoding : Int
  userId : Int
  groupId : Int
  hints : List Hint
  handle : Int
  fsId : Int
  ioType : CInt
  flowType : Int
  serverNumber : CInt
  serverCount : CInt
  stripeSize : CInt
  request : RequestBlock
  nested : List RequestBlock
  fileOffset : CULongLong
  aggregateSize : CULongLong
  totalBytes : CInt

namespace IoRequest

variable (r : IoRequest)

/-- In front of the servers: the handle, the file system, the I/O type and, in
the normal variant, padding and the flow type. -/
def head : List UInt8 :=
  leBytes 8 r.handle ++ (leBytes 4 r.fsId ++
    if r.small then leBytes 4 r.ioType.1
    else leBytes 4 0 ++ (leBytes 4 r.ioType.1 ++ leBytes 4 r.flowType))

def name : List UInt8 :=
  leBytes 4 simpleStripe.length ++ (simpleStripe ++ List.replicate 7 0)

def blocks : List UInt8 :=
  leBytes 4 r.nested.length ++ (leBytes 4 0 ++ (r.request :: r.nested).flatMap (·.1))

def sizes : List UInt8 :=
  leBytes 8 r.fileOffset.1 ++ (leBytes 8 r.aggregateSize.1 ++
    if r.small then leBytes 8 r.totalBytes.1 else [])

def body : List UInt8 :=
  r.head ++ (leBytes 4 r.serverNumber.1 ++ (leBytes 4 r.serverCount.1 ++
    (name ++ (leBytes 8 r.stripeSize.1 ++ (r.blocks ++ r.sizes)))))

/-- What the size of the header counts: all that follows the BMI header. -/
def payload : List UInt8 :=
  leBytes 4 r.version ++ (leBytes 4 r.encoding ++
    (leBytes 4 (if r.small then 33 else 3) ++ (leBytes 4 0 ++ (leBytes 4 r.userId ++
      (leBytes 4 r.groupId ++ (leBytes 4 r.hints.length ++
        (r.hints.flatMap Hint.encode ++ r.body)))))))

def encode : List UInt8 :=
  leBytes 4 r.magic ++ (leBytes 4 r.mode ++ (leBytes 8 r.tag ++
    (leBytes 8 r.payload.length ++ r.payload)))

/-- What the schedulers are to learn of it. -/
def dist : DumpedDist where
  currentServerNumber := r.serverNumber.1
  totalServerNumber := r.serverCount.1
  distName := simpleStripe
  stripeSize := some r.stripeSize.1
  aggregateSize := r.aggregateSize.1
  dataFileOffset := r.fileOffset.1
  smallTotal := if r.small then some r.totalBytes.1 else none

end IoRequest

/-! ## Hints -/

section

variable {msg : List UInt8} {p : Int}

theorem leBytes_inside {n : Nat} {v : Int} (h : SitsAt msg p (leBytes (n + 1) v)) :
    p + (n + 1 : Nat) ≤ msg.length := by
  simpa using h.length_le (List.cons_ne_nil _ _)

theorem hint_format {hint : Hint} (h : SitsAt msg p hint.encode) :
    hintFormat false msg p (p + hint.encode.length) := by
  rcases hint with value | ⟨hintType, value, hne⟩
  · obtain ⟨htype, -⟩ := SitsAt.append.mp h
    refine ⟨leBytes_inside htype, ?_, by simp⟩
    rw [param_four htype, if_pos (by decide)]
    simp [Hint.encode]
  · obtain ⟨htype, -⟩ := SitsAt.append.mp h
    refine ⟨leBytes_inside htype, ?_, by simp⟩
    rw [param_four htype, if_neg hne]
    simp [Hint.encode]

/-- Over the encoding of a list of hints the hint loop arrives behind it. -/
theorem hints_repeated {hints : List Hint} (h : SitsAt msg p (hints.flatMap Hint.encode)) :
    Repeated (hintFormat false msg) hints.length p
      (p + (hints.flatMap Hint.encode).length) := by
  induction hints generalizing p with
  | nil => simpa using Repeated.none p
  | cons hint hints ih =>
    rw [List.flatMap_cons] at h
    obtain ⟨hhint, hrest⟩ := SitsAt.append.mp h
    have hall := Repeated.more (hint_format hhint) (ih hrest)
    rw [List.flatMap_cons, List.length_append]
    push_cast
    rwa [← add_assoc]

end

/-! ## Decoding -/

namespace IoRequest

variable {r : IoRequest}

/-- Where the body begins. -/
def bodyStart (r : IoRequest) : Int := 52 + (r.hints.flatMap Hint.encode).length

theorem encode_sits (r : IoRequest) :
    SitsAt r.encode 32 (leBytes 4 (if r.small then 33 else 3))
      ∧ SitsAt r.encode 48 (leBytes 4 r.hints.length)
      ∧ SitsAt r.encode 52 (r.hints.flatMap Hint.encode)
      ∧ SitsAt r.encode r.bodyStart r.body := by
  obtain ⟨-, h⟩ := SitsAt.append.mp (SitsAt.self r.encode)
  simp only [SitsAt.append, length_leBytes] at h
  obtain ⟨-, -, -, hpayload⟩ := h
  simp only [payload, SitsAt.append, length_leBytes, Nat.cast_ofNat, zero_add, Int.reduceAdd]
    at hpayload
  obtain ⟨-, -, hop, -, -, -, hcount, hhints, hbody⟩ := hpayload
  exact ⟨hop, hcount, hhints, hbody⟩

theorem length_head (r : IoRequest) : (r.head.length : Int) = ioHead r.small - 8 := by
  obtain ⟨small⟩ := r
  cases small <;> simp [head, ioHead]

theorem length_name : name.length = 24 := by
  simp [name, simpleStripe]

theorem length_flatMap_blocks (blocks : List RequestBlock) :
    (blocks.flatMap (·.1)).length = blocks.length * 80 := by
  induction blocks with
  | nil => rfl
  | cons block blocks ih =>
    rw [List.flatMap_cons, List.length_append, block.2, ih, List.length_cons]
    omega

theorem length_blocks (r : IoRequest) :
    (r.blocks.length : Int) = 8 + (r.nested.length + 1) * 80 := by
  rw [blocks, List.length_append, List.length_append, length_leBytes, length_leBytes,
    length_flatMap_blocks, List.length_cons]
  push_cast
  omega

/-- The fields of a body at `p`, by where the name of the distribution is. -/
structure BodyAt (r : IoRequest) (msg : List UInt8) (b : Int) : Prop where
  server : SitsAt msg (b - 8) (leBytes 4 r.serverNumber.1)
  count : SitsAt msg (b - 4) (leBytes 4 r.serverCount.1)
  nameLength : SitsAt msg b (leBytes 4 simpleStripe.length)
  nameChars : SitsAt msg (b + 4) simpleStripe
  stripe : SitsAt msg (b + 24) (leBytes 8 r.stripeSize.1)
  number : SitsAt msg (b + 32) (leBytes 4 r.nested.length)
  sizes : SitsAt msg (b + 40 + (r.nested.length + 1) * 80) r.sizes

theorem body_sits {msg : List UInt8} {p : Int} (h : SitsAt msg p r.body) :
    BodyAt r msg (p + ioHead r.small) := by
  rw [body] at h
  simp only [SitsAt.append, length_leBytes, length_head, length_name, length_blocks,
    Nat.cast_ofNat] at h
  obtain ⟨-, hserver, hcount, hname, hstripe, hblocks, hsizes⟩ := h
  simp only [name, SitsAt.append, length_leBytes, Nat.cast_ofNat] at hname
  obtain ⟨hlength, hchars, -⟩ := hname
  obtain ⟨hnumber, -⟩ := SitsAt.append.mp hblocks
  constructor
  · convert hserver using 1
    omega
  · convert hcount using 1
    omega
  · convert hlength using 1
    omega
  · convert hchars using 1
    omega
  · convert hstripe using 1
    omega
  · convert hnumber using 1
    omega
  · convert hsizes using 1
    omega

theorem ioType_sits {msg : List UInt8} {p : Int} (h : SitsAt msg p r.body) :
    SitsAt msg (if r.small then p + 12 else p + 16) (leBytes 4 r.ioType.1) := by
  rw [body] at h
  have hhead := (SitsAt.append.mp h).1
  rw [head] at hhead
  rcases hsmall : r.small with _ | _
  · simp only [hsmall, SitsAt.append, length_leBytes, Nat.cast_ofNat, Bool.false_eq_true, if_false,
      add_assoc, Int.reduceAdd] at hhead ⊢
    exact hhead.2.2.2.1
  · simp only [hsmall, SitsAt.append, length_leBytes, Nat.cast_ofNat, if_true, add_assoc,
      Int.reduceAdd] at hhead ⊢
    exact hhead.2.2

section

variable {msg : List UInt8} {b : Int}

theorem BodyAt.string (h : BodyAt r msg b) :
    stringFormat msg b (b + 24) ∧ distNameAt msg b = simpleStripe := by
  have hsize : stringSize msg b = 13 := by
    rw [← toInt32_param, param_four h.nameLength]
    rfl
  have hlength : b + (4 : Nat) ≤ msg.length := leBytes_inside h.nameLength
  have hchars : b + 4 + (13 : Nat) ≤ msg.length := h.nameChars.length_le (by decide)
  refine ⟨⟨hlength, by omega, by omega, ?_⟩, ?_⟩
  · rw [hsize]
    rfl
  · have htake : (msg.drop (b + 4).toNat).take 13 = simpleStripe := h.nameChars.take
    rw [distNameAt, hsize, show Int.toNat 13 = 13 from rfl, htake]
    decide

theorem distFormat_simpleStripe : distFormat msg simpleStripe = record msg 8 8 := by
  rw [distFormat, if_neg (by decide), if_neg (by decide), if_pos rfl]

theorem BodyAt.nestedEnd (h : BodyAt r msg b) (hlen : (msg.length : Int) < 2 ^ 31) :
    nestedEnd msg (b + 32) = b + 40 + (r.nested.length + 1) * 80 := by
  have hsizes : b + 40 + (r.nested.length + 1) * 80 + (8 : Nat) ≤ msg.length :=
    leBytes_inside (SitsAt.append.mp h.sizes).1
  have hb := h.nameLength.1
  rw [PvfsProxy.nestedEnd, param_four h.number, Int.emod_eq_of_lt (by omega) (by omega)]
  exact (toInt32_eq (by omega) (by omega)).trans (by omega)

theorem sizesAt_eq {p : Int} (h : SitsAt msg p r.sizes) :
    p + (if r.small then 24 else 16) ≤ msg.length
      ∧ sizesAt r.small msg p = (r.fileOffset.1, r.aggregateSize.1,
        if r.small then some r.totalBytes.1 else none) := by
  obtain ⟨hoffset, hrest⟩ := SitsAt.append.mp h
  obtain ⟨haggregate, htotal⟩ := SitsAt.append.mp hrest
  simp only [length_leBytes, Nat.cast_ofNat] at haggregate htotal
  have hinside : p + 8 + (8 : Nat) ≤ msg.length := leBytes_inside haggregate
  rw [sizesAt, toUInt64_param_eight hoffset, toUInt64_param_eight haggregate]
  rcases hsmall : r.small with _ | _
  · simp only [Bool.false_eq_true, if_false, and_true]
    omega
  · simp only [hsmall, if_true] at htotal ⊢
    have hend : p + 8 + 8 + (8 : Nat) ≤ msg.length := leBytes_inside htotal
    rw [toInt32_param_eight htotal]
    exact ⟨by omega, rfl⟩

end

theorem hints_length_le (hints : List Hint) :
    hints.length ≤ (hints.flatMap Hint.encode).length := by
  induction hints with
  | nil => simp
  | cons hint hints ih =>
    have hpos : 1 ≤ hint.encode.length := by
      rcases hint with value | ⟨hintType, value, hne⟩ <;> simp [Hint.encode]
    rw [List.flatMap_cons, List.length_append, List.length_cons]
    omega

theorem operationAt_encode (r : IoRequest) :
    operationAt r.encode = if r.small then .smallIo else .io := by
  rw [operationAt, param_four r.encode_sits.1]
  cases r.small <;> rfl

theorem encode_hints (r : IoRequest) (hlen : (r.encode.length : Int) < 2 ^ 31) :
    (52 : Int) ≤ r.encode.length ∧ hintsFormat false r.encode 52 r.bodyStart := by
  obtain ⟨-, hcount, hhints, hbody⟩ := r.encode_sits
  have hin : (48 : Int) + (4 : Nat) ≤ r.encode.length := leBytes_inside hcount
  have hstart := (body_sits hbody).server.1
  have hend : r.bodyStart + ioHead r.small + (4 : Nat) ≤ r.encode.length :=
    leBytes_inside (body_sits hbody).nameLength
  have hle := hints_length_le r.hints
  rw [bodyStart] at hend
  refine ⟨by omega, ?_⟩
  rw [hintsFormat, param_four hcount, Int.emod_eq_of_lt (by omega) (by omega), Int.toNat_natCast]
  exact hints_repeated hhints

end IoRequest

/-- A write of 64 KiB to the second of four servers. -/
def smallWrite : IoRequest where
  small := true
  magic := 0xcabf
  mode := 2
  tag := 7
  version := 0
  encoding := 1
  userId := 0
  groupId := 0
  hints := [.handle 5, .other 1 9 (by decide)]
  handle := 5
  fsId := 6
  ioType := ⟨2, by decide⟩
  flowType := 1
  serverNumber := ⟨1, by decide⟩
  serverCount := ⟨4, by decide⟩
  stripeSize := ⟨65536, by decide⟩
  request := ⟨List.replicate 80 0, by decide⟩
  nested := []
  fileOffset := ⟨65536, by decide⟩
  aggregateSize := ⟨65536, by decide⟩
  totalBytes := ⟨65536, by decide⟩

end PvfsProxy
