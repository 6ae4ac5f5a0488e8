import Mathlib.Data.BitVec
import PvfsProxy.Broadcast

/-!
# A broadcast in pieces

`send` may accept less than a whole broadcast and `recv` may return less. The
threads then go on behind what has gone through, and count it in bytes; but
they add the count to a pointer to `struct proxy_message`, which moves on by
eight bytes for each byte. A second piece is therefore read or written outside
the buffer, in the end, however the pieces are cut (`dsfq_partial_transfer`).

`none` is an access outside of a buffer.
-/

namespace PvfsProxy

abbrev Byte := BitVec 8

/-- `struct proxy_message` as it lies in memory: two little-endian `int`s. -/
structure ProxyMessageWords where
  appIndex : BitVec 32
  periodCount : BitVec 32
deriving Repr, DecidableEq

def intBytes (x : BitVec 32) : List Byte :=
  [x.extractLsb' 0 8, x.extractLsb' 8 8, x.extractLsb' 16 8, x.extractLsb' 24 8]

def ofIntBytes (b₀ b₁ b₂ b₃ : Byte) : BitVec 32 :=
  b₃ ++ (b₂ ++ (b₁ ++ b₀))

/-- An array of messages as bytes. -/
def messageBytes : List ProxyMessageWords → List Byte
  | [] => []
  | m :: ms => intBytes m.appIndex ++ (intBytes m.periodCount ++ messageBytes ms)

/-- The array that bytes stand for. -/
def ofMessageBytes : List Byte → List ProxyMessageWords
  | a₀ :: a₁ :: a₂ :: a₃ :: c₀ :: c₁ :: c₂ :: c₃ :: bs =>
    { appIndex := ofIntBytes a₀ a₁ a₂ a₃
      periodCount := ofIntBytes c₀ c₁ c₂ c₃ } :: ofMessageBytes bs
  | _ => []

theorem ofIntBytes_intBytes (x : BitVec 32) :
    ofIntBytes (x.extractLsb' 0 8) (x.extractLsb' 8 8) (x.extractLsb' 16 8) (x.extractLsb' 24 8)
      = x := by
  unfold ofIntBytes
  apply BitVec.eq_of_getLsbD_eq
  intro i hi
  simp only [BitVec.getLsbD_append, BitVec.getLsbD_extractLsb']
  grind

theorem messageBytes_length (ms : List ProxyMessageWords) :
    (messageBytes ms).length = ms.length * proxyMessageSize := by
  induction ms with
  | nil => rfl
  | cons m ms ih =>
      unfold messageBytes intBytes
      simp only [List.length_append, List.length_cons, List.length_nil, ih, proxyMessageSize]
      omega

theorem ofMessageBytes_messageBytes (ms : List ProxyMessageWords) :
    ofMessageBytes (messageBytes ms) = ms := by
  induction ms with
  | nil => rfl
  | cons m ms ih =>
      unfold messageBytes intBytes
      simp only [List.cons_append, List.nil_append, ofMessageBytes, ofIntBytes_intBytes, ih]

/-- A message buffer with the count that its thread keeps of it. -/
structure ByteBuffer where
  bytes : List Byte
  size : Nat
deriving Repr, DecidableEq

/-- `memmove(buf, buf + from, count)` -/
def memmove (buf : List Byte) (src count : Nat) : Option (List Byte) :=
  if src + count ≤ buf.length then some ((buf.drop src).take count ++ buf.drop count)
  else none

/-- The pointer that `dsfq_proxy_broadcast_work` and `dsfq_proxy_receive_work`
compute for `count` bytes, as an offset in bytes. -/
def proxyMessageOffset (count : Nat) : Nat := count * proxyMessageSize

/-- `dsfq_proxy_broadcast_work` where `send` accepts `sentSize` bytes. -/
def sendPiece (sentSize : Nat) (b : ByteBuffer) : Option (ByteBuffer × List Byte) := do
  if b.bytes.length < b.size then none
  let bytes ←
    if b.size ≠ sentSize then
      memmove b.bytes (proxyMessageOffset sentSize) (b.size - sentSize)
    else some b.bytes
  some ({ bytes := bytes, size := b.size - sentSize }, b.bytes.take sentSize)

/-- The bytes on the wire after `send` accepted pieces of these lengths. -/
def sendPieces : List Nat → ByteBuffer → Option (List Byte)
  | [], _ => some []
  | sentSize :: rest, b => do
    let (b, wire) ← sendPiece sentSize b
    let later ← sendPieces rest b
    some (wire ++ later)

/-- `dsfq_proxy_receive_work` where `recv` returns these bytes. -/
def recvPiece (piece : List Byte) (b : ByteBuffer) : Option ByteBuffer :=
  let start := proxyMessageOffset b.size
  if start + piece.length ≤ b.bytes.length then
    some
      { bytes := b.bytes.take start ++ piece ++ b.bytes.drop (start + piece.length)
        size := b.size + piece.length }
  else none

/-- `recv` returns what is on the wire in pieces of these lengths. -/
def recvPieces : List Nat → List Byte → ByteBuffer → Option ByteBuffer
  | [], _, b => some b
  | recvSize :: rest, wire, b => do
    let b ← recvPiece (wire.take recvSize) b
    recvPieces rest (wire.drop recvSize) b

/-- The array that is processed, once the count says that it is whole. -/
def processed (numApps : Nat) (b : ByteBuffer) : Option (List ProxyMessageWords) :=
  if b.size ≠ numApps * proxyMessageSize then none
  else some (ofMessageBytes b.bytes)

/-- From the array that the coordinator built to the one that the peer
processes; `received` is what its buffer holds before. -/
def transfer (ms : List ProxyMessageWords) (received : List Byte) (sends recvs : List Nat) :
    Option (List ProxyMessageWords) := do
  let wire ← sendPieces sends
    { bytes := messageBytes ms, size := ms.length * proxyMessageSize }
  let b ← recvPieces recvs wire { bytes := received, size := 0 }
  processed ms.length b

/-- Pieces of a byte at least that make up a whole. -/
structure Pieces (total : Nat) (ks : List Nat) : Prop where
  pos : ∀ k ∈ ks, 0 < k
  sum : ks.sum = total

theorem Pieces.cons {total k : Nat} {ks : List Nat} (h : Pieces total (k :: ks)) :
    0 < k ∧ k ≤ total ∧ Pieces (total - k) ks := by
  have hsum := h.sum
  rw [List.sum_cons] at hsum
  exact ⟨h.pos k (List.mem_cons_self ..), by omega,
    ⟨fun j hj => h.pos j (List.mem_cons_of_mem _ hj), by omega⟩⟩

theorem Pieces.pos_of_cons {total k : Nat} {ks : List Nat} (h : Pieces total (k :: ks)) :
    0 < total := by
  obtain ⟨hpos, hle, -⟩ := h.cons
  omega

/-- The sender gets through with the message in one piece. -/
theorem sendPieces_one {bytes : List Byte} {ks : List Nat} (h : Pieces bytes.length ks)
    (hone : ks.length ≤ 1) :
    sendPieces ks { bytes := bytes, size := bytes.length } = some bytes := by
  cases ks with
  | nil =>
      have hnil : bytes = [] := List.eq_nil_of_length_eq_zero h.sum.symm
      rw [hnil]
      rfl
  | cons k ks =>
      have hks : ks = [] :=
        List.eq_nil_of_length_eq_zero (Nat.le_zero.mp (Nat.le_of_succ_le_succ hone))
      subst hks
      have hk : k = bytes.length := by simpa using h.sum
      subst hk
      simp [sendPieces, sendPiece]

/-- A first piece that is not the whole moves bytes from outside the buffer. -/
theorem sendPieces_more {bytes : List Byte} {ks : List Nat} (h : Pieces bytes.length ks)
    (hmore : ¬ ks.length ≤ 1) : sendPieces ks { bytes := bytes, size := bytes.length } = none := by
  rcases ks with - | ⟨k, - | ⟨j, ks⟩⟩
  · exact absurd (Nat.zero_le 1) hmore
  · exact absurd (Nat.le_refl 1) hmore
  · obtain ⟨hk, hle, hrest⟩ := h.cons
    have hj := hrest.pos_of_cons
    have houtside : ¬ proxyMessageOffset k + (bytes.length - k) ≤ bytes.length := by
      unfold proxyMessageOffset proxyMessageSize
      omega
    have hne : bytes.length ≠ k := by omega
    simp [sendPieces, sendPiece, memmove, hne, houtside]

/-- Behind a first piece the last one is written outside the buffer. -/
theorem recvPieces_more {k : Nat} {ks : List Nat} {wire : List Byte} {b : ByteBuffer}
    (hsize : 0 < b.size) (h : Pieces (b.bytes.length - b.size) (k :: ks))
    (hwire : wire.length = b.bytes.length - b.size) : recvPieces (k :: ks) wire b = none := by
  induction ks generalizing k wire b with
  | nil =>
      obtain ⟨hk, hle, hrest⟩ := h.cons
      have hlast : k = b.bytes.length - b.size := by simpa using h.sum
      have houtside :
          ¬ proxyMessageOffset b.size + (wire.take k).length ≤ b.bytes.length := by
        rw [List.length_take]
        unfold proxyMessageOffset proxyMessageSize
        omega
      simp only [recvPieces, recvPiece, if_neg houtside]
      rfl
  | cons j ks ih =>
      obtain ⟨hk, hle, hrest⟩ := h.cons
      by_cases hinside :
          proxyMessageOffset b.size + (wire.take k).length ≤ b.bytes.length
      · have htake : (wire.take k).length = k := by
          rw [List.length_take]
          omega
        generalize hb : ({
            bytes := b.bytes.take (proxyMessageOffset b.size) ++ wire.take k
              ++ b.bytes.drop (proxyMessageOffset b.size + (wire.take k).length)
            size := b.size + (wire.take k).length } : ByteBuffer) = b'
        have hbytes : b'.bytes.length = b.bytes.length := by
          rw [← hb]
          simp only [List.length_append, List.length_take, List.length_drop] at hinside ⊢
          omega
        have hsize' : b'.size = b.size + k := by
          rw [← hb, htake]
        have hstep : recvPieces (k :: j :: ks) wire b = recvPieces (j :: ks) (wire.drop k) b' := by
          rw [← hb]
          simp only [recvPieces, recvPiece, if_pos hinside]
          rfl
        rw [hstep]
        refine ih (by omega) ?_ ?_
        · rw [hbytes, hsize', ← Nat.sub_sub]
          exact hrest
        · rw [List.length_drop, hbytes, hsize', hwire, Nat.sub_sub]
      · simp only [recvPieces, recvPiece, if_neg hinside]
        rfl

theorem recvPieces_one {wire received : List Byte} {ks : List Nat} (h : Pieces wire.length ks)
    (hone : ks.length ≤ 1) (hlength : received.length = wire.length) :
    recvPieces ks wire { bytes := received, size := 0 }
      = some { bytes := wire, size := wire.length } := by
  cases ks with
  | nil =>
      have hnil : wire = [] := List.eq_nil_of_length_eq_zero h.sum.symm
      have hnil' : received = [] := by
        rw [hnil] at hlength
        exact List.eq_nil_of_length_eq_zero hlength
      rw [hnil, hnil']
      rfl
  | cons k ks =>
      have hks : ks = [] :=
        List.eq_nil_of_length_eq_zero (Nat.le_zero.mp (Nat.le_of_succ_le_succ hone))
      subst hks
      have hk : k = wire.length := by simpa using h.sum
      subst hk
      simp [recvPieces, recvPiece, proxyMessageOffset, hlength]

theorem recvPieces_none {wire received : List Byte} {ks : List Nat} (h : Pieces wire.length ks)
    (hmore : ¬ ks.length ≤ 1) (hlength : received.length = wire.length) :
    recvPieces ks wire { bytes := received, size := 0 } = none := by
  rcases ks with - | ⟨k, - | ⟨j, ks⟩⟩
  · exact absurd (Nat.zero_le 1) hmore
  · exact absurd (Nat.le_refl 1) hmore
  · obtain ⟨hk, hle, hrest⟩ := h.cons
    have htake : (wire.take k).length = k := by
      rw [List.length_take]
      omega
    have hstep : recvPieces (k :: j :: ks) wire { bytes := received, size := 0 }
        = recvPieces (j :: ks) (wire.drop k)
            { bytes := wire.take k ++ received.drop k, size := k } := by
      simp [recvPieces, recvPiece, proxyMessageOffset, htake, hlength, hle]
    have hbytes : (wire.take k ++ received.drop k).length = wire.length := by
      rw [List.length_append, htake, List.length_drop, hlength]
      omega
    rw [hstep]
    refine recvPieces_more hk ?_ ?_
    · rw [hbytes]
      exact hrest
    · rw [hbytes, List.length_drop]

/-- **A broadcast gets through** exactly when it is accepted in one piece and
returned in one piece; otherwise one of the two threads leaves its buffer. -/
theorem dsfq_partial_transfer {ms : List ProxyMessageWords} {received : List Byte}
    {sends recvs : List Nat} (hreceived : received.length = ms.length * proxyMessageSize)
    (hsends : Pieces (ms.length * proxyMessageSize) sends)
    (hrecvs : Pieces (ms.length * proxyMessageSize) recvs) :
    transfer ms received sends recvs = some ms ↔ sends.length ≤ 1 ∧ recvs.length ≤ 1 := by
  have hlength := messageBytes_length ms
  rw [← hlength] at hreceived hsends hrecvs
  unfold transfer
  rw [← hlength]
  by_cases hone : sends.length ≤ 1
  · rw [sendPieces_one hsends hone]
    by_cases hone' : recvs.length ≤ 1
    · have hrecv := recvPieces_one hrecvs hone' hreceived
      have hwhole : processed ms.length
          { bytes := messageBytes ms, size := (messageBytes ms).length } = some ms := by
        unfold processed
        rw [if_neg (not_not.mpr hlength), ofMessageBytes_messageBytes]
      simp [hrecv, hwhole, hone, hone']
    · simp [recvPieces_none hrecvs hone' hreceived, hone']
  · simp [sendPieces_more hsends hone, hone]

/-- The message of one application, sent and received in one piece. -/
theorem dsfq_partial_transfer_example :
    transfer [{ appIndex := 0, periodCount := 4096 }] (List.replicate 8 0) [8] [8]
      = some [{ appIndex := 0, periodCount := 4096 }] :=
  (dsfq_partial_transfer rfl ⟨by decide, rfl⟩ ⟨by decide, rfl⟩).mpr ⟨by decide, by decide⟩

/-- After four of eight bytes the rest is taken from 32 bytes further on. -/
theorem dsfq_partial_transfer_fails :
    ¬ ∀ (ms : List ProxyMessageWords) (received : List Byte) (sends recvs : List Nat),
        received.length = ms.length * proxyMessageSize →
        Pieces (ms.length * proxyMessageSize) sends →
        Pieces (ms.length * proxyMessageSize) recvs →
        transfer ms received sends recvs = some ms := by
  intro hall
  have hwhole := hall [{ appIndex := 0, periodCount := 4096 }] (List.replicate 8 0) [4, 4] [8] rfl
    ⟨by decide, rfl⟩ ⟨by decide, rfl⟩
  exact absurd hwhole (by decide)

end PvfsProxy
