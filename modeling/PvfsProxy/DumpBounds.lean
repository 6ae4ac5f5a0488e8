import PvfsProxy.Dump
import PvfsProxy.Lib.Formats
import Mathlib.Tactic.Ring

/-!
# Parsing inside the message

The layout of a request as a format: what its operation and its own counts,
lengths and flags announce, and where that ends. Every walker of `dump.c` is
checked against its format, which gives `parseRequest_inside`: the fields are
all read inside the message exactly when the message holds what it announces.

Nothing in `dump.c` compares an offset with the length of the message, so a
message that announces more is read past its end.
-/

namespace PvfsProxy

open Formats Relation

variable {msg : List UInt8} {p q : Int} {n : Nat}

/-! ## Formats -/

/-- Fields up to `n` bytes, in a section of `k`; what is left is padding. -/
def record (msg : List UInt8) (n k : Nat) : Format := fun p q => p + n ≤ msg.length ∧ q = p + k

def paddedTo8 (n : Int) : Int := (n + 7) / 8 * 8

/-- The length field of a string, an `int`. -/
def stringSize (msg : List UInt8) (p : Int) : Int := toInt32 (param msg p 4)

theorem toInt32_param : toInt32 (param msg p 4) = stringSize msg p := rfl

attribute [irreducible] stringSize

/-- A length that is not negative, as many characters, padding. -/
def stringFormat (msg : List UInt8) : Format := fun p q =>
  p + 4 ≤ msg.length ∧ 0 ≤ stringSize msg p ∧ p + 4 + stringSize msg p ≤ msg.length
    ∧ q = p + paddedTo8 (4 + stringSize msg p)

/-- A type and the value that goes with it, which need not be there unless it is read. -/
def hintFormat (values : Bool) (msg : List UInt8) : Format := fun p q =>
  p + 4 ≤ msg.length ∧ q = p + (if param msg p 4 = pintHintHandle then 12 else 8)
    ∧ (values → q ≤ msg.length)

/-- As many hints as are counted. -/
def hintsFormat (values : Bool) (msg : List UInt8) : Format :=
  Repeated (hintFormat values msg) (param msg 48 4).toNat

/-- As many handles as are counted, and a hint. -/
def dfilesFormat (msg : List UInt8) : Format := fun p =>
  Comp (record msg 4 8)
    (Comp (Repeated (record msg 8 8) (toInt32 (param msg p 4)).toNat) (record msg 8 8)) p

def dirHintFormat (msg : List UInt8) : Format :=
  Comp (record msg 8 8) (Comp (record msg 4 8) (Comp (stringFormat msg)
    (Comp (record msg 4 8) (Comp (stringFormat msg) (record msg 4 4)))))

/-- The sections the attribute mask announces. -/
def attributePlusFormat (msg : List UInt8) (plus : AttrPlus) : Format :=
  Comp (optional (plus.createDsType = pvfsTypeMetafile
      ∧ ¬ plus.attrMask.testBit attrMetaUnstuffed) (record msg 4 8))
    (Comp (optional (plus.attrMask.testBit attrMetaDist)
        (Comp (stringFormat msg) (record msg 8 8)))
      (Comp (optional (plus.attrMask.testBit attrMetaDfiles) (dfilesFormat msg))
        (Comp (optional (plus.attrMask.testBit attrDataSize) (record msg 8 8))
          (Comp (optional (plus.attrMask.testBit attrSymlnkTarget)
              (Comp (record msg 4 8) (stringFormat msg)))
            (optional (plus.attrMask.testBit attrDirDirentCount
                ∨ plus.attrMask.testBit attrDirHint) (dirHintFormat msg))))))

/-- The mask and the type in the attribute at `p`. -/
def attrPlusAt (msg : List UInt8) (p : Int) : AttrPlus where
  createDsType := toInt32 (param msg (p + 44) 4)
  attrMask := (param msg (p + 40) 4).toNat

def attributesFormat (msg : List UInt8) : Format := fun p =>
  Comp (record msg 48 48) (attributePlusFormat msg (attrPlusAt msg p)) p

/-- Behind the attributes of `create`: three fields, and a string for one layout. -/
def createTailFormat (msg : List UInt8) : Format := fun p =>
  Comp (record msg 16 20)
    (optional (toInt32 (param msg (p + 4) 4) = pvfsSysLayoutList) (stringFormat msg)) p

/-- The characters of the name whose length is at `p`. -/
def distNameAt (msg : List UInt8) (p : Int) : List UInt8 :=
  cChars ((msg.drop (p + 4).toNat).take (stringSize msg p).toNat)

/-- The distributions that are recognised. -/
def distNames : List (List UInt8) := [basicDist, varstripDist, simpleStripe, twodStripe]

/-- A string with a NUL, padding. -/
def varstripFormat (msg : List UInt8) : Format := fun p q =>
  0 ∈ msg.drop p.toNat ∧ q = p + paddedTo8 (cChars (msg.drop p.toNat)).length

def distFormat (msg : List UInt8) (distName : List UInt8) : Format :=
  if distName = basicDist then Eq
  else if distName = varstripDist then varstripFormat msg
  else if distName = simpleStripe then record msg 8 8
  else record msg 12 16

/-- Where the nested requests end, by the number at `p`. It is an `int`, and the
nested requests need not be there. -/
def nestedEnd (msg : List UInt8) (p : Int) : Int :=
  toInt32 (p + 4 + 4 + (param msg p 4 + 1) * 80)

/-- The number of nested requests, and the sizes where they end. -/
def sizesFormat (small : Bool) (msg : List UInt8) : Format := fun p q =>
  p + 4 ≤ msg.length ∧ 0 ≤ nestedEnd msg p
    ∧ record msg (if small then 24 else 16) (if small then 24 else 16) (nestedEnd msg p) q

def ioHead (small : Bool) : Nat := if small then 24 else 32

/-- The body of an I/O request. Behind a name that is not recognised nothing is read. -/
def ioFormat (small : Bool) (msg : List UInt8) : Format :=
  Comp (record msg (ioHead small) (ioHead small)) fun p q =>
    ∃ m, stringFormat msg p m ∧ optional (distNameAt msg p ∈ distNames)
      (Comp (distFormat msg (distNameAt msg p)) (sizesFormat small msg)) m q

def metaFormat (msg : List UInt8) : PvfsServerOp → Format
  | .getattr | .listattr => record msg 16 16
  | .readdir => record msg 24 24
  | .statfs => record msg 4 8
  | .remove => record msg 12 12
  | .crdirent | .lookupPath => Comp (stringFormat msg) (record msg 20 20)
  | .rmdirent => Comp (stringFormat msg) (record msg 12 12)
  | .create => Comp (record msg 4 8) (Comp (attributesFormat msg) (createTailFormat msg))
  | .mkdir => Comp (record msg 4 8) (Comp (attributesFormat msg) (record msg 8 8))
  | _ => Eq

/-! ## Checked reads -/

theorem readParam_checked (hp : 0 ≤ p) :
    Checked .outside (readParam msg p n) fun v => p + n ≤ msg.length ∧ v = param msg p n :=
  (Checked.guard _ _).congr fun v => by simp [hp]

theorem readBytes_checked {k : Int} (hp : 0 ≤ p) :
    Checked .outside (readBytes msg p k) fun s =>
      (0 ≤ k ∧ p + k ≤ msg.length) ∧ s = (msg.drop p.toNat).take k.toNat :=
  (Checked.guard _ _).congr fun v => by simp [hp]

section Read

variable {β : Type} {f : Int → Except DumpFault β} {S : β → Prop}

theorem read_checked (hp : 0 ≤ p) (h : Checked .outside (f (param msg p n)) S) :
    Checked .outside (readParam msg p n >>= f) fun b => p + n ≤ msg.length ∧ S b := by
  refine ((readParam_checked hp).bind (S := fun _ b => S b) ?_).congr fun b => ?_
  · rintro v ⟨-, rfl⟩
    exact h
  · simp

theorem read_pure_checked (hp : 0 ≤ p) (g : Int → β) :
    Checked .outside (readParam msg p n >>= fun v => pure (g v)) fun b =>
      p + n ≤ msg.length ∧ b = g (param msg p n) :=
  read_checked hp (Checked.pure _)

theorem field_checked {k : Nat} (hp : 0 ≤ p) (h : Checked .outside (f (p + k)) S) :
    Checked .outside (dumpField msg n k p >>= f) fun b => p + n ≤ msg.length ∧ S b := by
  simpa only [dumpField, bind_assoc, pure_bind] using
    read_checked (f := fun _ => f (p + k)) hp h

theorem readParam_ne (hp : 0 ≤ p) :
    readParam msg p n >>= f ≠ .error .outside
      ↔ p + n ≤ msg.length ∧ f (param msg p n) ≠ .error .outside := by
  rw [(readParam_checked hp).bind_ne]
  simp

theorem readParam_eq_ok (hp : 0 ≤ p) {b : β} :
    readParam msg p n >>= f = .ok b ↔ p + n ≤ msg.length ∧ f (param msg p n) = .ok b := by
  rw [(readParam_checked hp).bind_eq_ok]
  simp

/-- A read and what follows stay inside where both formats fit. -/
theorem readParam_fits {R : Format} (hp : 0 ≤ p) (k : Nat)
    (hf : f (param msg p n) ≠ .error .outside ↔ Fits R (p + k)) :
    readParam msg p n >>= f ≠ .error .outside ↔ Fits (Comp (record msg n k) R) p := by
  rw [(readParam_checked hp).bind_ne, fits_comp]
  constructor
  · rintro ⟨_, ⟨hin, rfl⟩, hne⟩
    exact ⟨p + k, ⟨hin, rfl⟩, hf.mp hne⟩
  · rintro ⟨_, ⟨hin, rfl⟩, hfits⟩
    exact ⟨_, ⟨hin, rfl⟩, hf.mpr hfits⟩

theorem readParam_pure_fits (hp : 0 ≤ p) (k : Nat) (g : Int → β) :
    (readParam msg p n >>= fun v => pure (g v)) ≠ .error .outside ↔ Fits (record msg n k) p := by
  rw [(read_pure_checked hp g).ne_iff]
  simp [Fits, record]

end Read

theorem dumpField_walks (n k : Nat) :
    Walks .outside (dumpField msg n k) (record msg n k) where
  forward := by
    rintro p q ⟨-, rfl⟩
    omega
  checked := fun hp => read_checked hp (Checked.pure _)

/-- Fields one after the other are one section. -/
theorem record_comp_record {n k n' k' : Nat} (h : n ≤ k + n') :
    Comp (record msg n k) (record msg n' k') = record msg (k + n') (k + k') := by
  funext p q
  refine propext ⟨?_, ?_⟩
  · rintro ⟨m, ⟨-, rfl⟩, hin, rfl⟩
    exact ⟨by omega, by omega⟩
  · rintro ⟨hin, rfl⟩
    exact ⟨p + k, ⟨by omega, rfl⟩, by omega, by omega⟩

theorem paddedTo8_eq (size : Int) :
    4 + size + (if (4 + size) % 8 > 0 then 8 - (4 + size) % 8 else 0) = paddedTo8 (4 + size) := by
  unfold paddedTo8
  split <;> omega

/-! ## Metadata -/

theorem dumpString_walks : Walks .outside (dumpString msg) (stringFormat msg) where
  forward := by
    rintro p q ⟨-, hsize, -, rfl⟩
    unfold paddedTo8
    omega
  checked := by
    intro p hp
    have hchars : Checked .outside (readBytes msg (p + 4) (toInt32 (param msg p 4))) _ :=
      readBytes_checked (by omega)
    refine (read_checked hp (hchars.bind fun s _ => Checked.pure _)).congr fun q => ?_
    have hpadded := paddedTo8_eq (stringSize msg p)
    simp only [toInt32_param]
    constructor
    · rintro ⟨hlength, s, ⟨⟨hsize, hin⟩, -⟩, rfl⟩
      exact ⟨hlength, hsize, hin, by omega⟩
    · rintro ⟨hlength, hsize, hin, rfl⟩
      exact ⟨hlength, _, ⟨⟨hsize, hin⟩, rfl⟩, by omega⟩

theorem dumpMetaDist_walks :
    Walks .outside (dumpMetaDist msg) (Comp (stringFormat msg) (record msg 8 8)) :=
  dumpString_walks.comp (dumpField_walks 8 8)

theorem dumpHandles_eq_iterate : dumpHandles msg n p = iterate (dumpField msg 8 8) n p := by
  induction n generalizing p with
  | zero => rfl
  | succ n ih => exact bind_congr fun _ => ih

theorem dumpMetaDfiles_walks : Walks .outside (dumpMetaDfiles msg) (dfilesFormat msg) := by
  have htail : ∀ n, Walks .outside (fun p => dumpHandles msg n p >>= dumpField msg 8 8)
      (Comp (Repeated (record msg 8 8) n) (record msg 8 8)) := by
    intro n
    simp only [dumpHandles_eq_iterate]
    exact ((dumpField_walks 8 8).iterate n).comp (dumpField_walks 8 8)
  constructor
  · rintro p q ⟨_, ⟨-, rfl⟩, hhandles⟩
    have hforward := (htail _).forward hhandles
    omega
  · intro p hp
    refine (read_checked hp ((htail _).checked (p := p + 8) (by omega))).congr fun q => ?_
    simp [dfilesFormat, Comp, record]

theorem dumpSymlnkTarget_walks :
    Walks .outside (dumpSymlnkTarget msg) (Comp (record msg 4 8) (stringFormat msg)) :=
  (dumpField_walks 4 8).comp dumpString_walks

theorem dumpDirHint_walks : Walks .outside (dumpDirHint msg) (dirHintFormat msg) :=
  (dumpField_walks 8 8).comp <| (dumpField_walks 4 8).comp <| dumpString_walks.comp <|
    (dumpField_walks 4 8).comp <| dumpString_walks.comp <| dumpField_walks 4 4

theorem dumpAttributePlus_walks (plus : AttrPlus) :
    Walks .outside (dumpAttributePlus msg plus) (attributePlusFormat msg plus) :=
  ((dumpField_walks 4 8).optional _).comp <| (dumpMetaDist_walks.optional _).comp <|
    (dumpMetaDfiles_walks.optional _).comp <| ((dumpField_walks 8 8).optional _).comp <|
    (dumpSymlnkTarget_walks.optional _).comp <| dumpDirHint_walks.optional _

theorem dumpAttribute_checked (hp : 0 ≤ p) :
    Checked .outside (dumpAttribute msg p) fun r =>
      record msg 48 48 p r.1 ∧ r.2 = attrPlusAt msg p := by
  refine (field_checked hp <| field_checked (by omega) <| field_checked (by omega) <|
    field_checked (by omega) <| field_checked (by omega) <| field_checked (by omega) <|
    read_checked (by omega) <| read_pure_checked (by omega) _).congr ?_
  rintro ⟨q, plus⟩
  simp only [record, attrPlusAt, Prod.mk.injEq, Nat.cast_ofNat, add_assoc, Int.reduceAdd]
  constructor
  · rintro ⟨_, _, _, _, _, _, _, hin, rfl, rfl⟩
    exact ⟨⟨by omega, rfl⟩, rfl⟩
  · rintro ⟨⟨hin, rfl⟩, rfl⟩
    exact ⟨by omega, by omega, by omega, by omega, by omega, by omega, by omega, by omega, rfl, rfl⟩

theorem dumpAttributes_walks : Walks .outside (dumpAttributes msg) (attributesFormat msg) where
  forward := by
    rintro p q ⟨_, ⟨-, rfl⟩, hplus⟩
    have hforward := (dumpAttributePlus_walks _).forward hplus
    omega
  checked := by
    intro p hp
    refine ((dumpAttribute_checked hp).bind (S := fun r q => attributePlusFormat msg r.2 r.1 q)
      ?_).congr fun q => ?_
    · rintro ⟨m, plus⟩ ⟨⟨-, hm⟩, -⟩
      exact (dumpAttributePlus_walks plus).checked (by simp only at hm; omega)
    · simp [attributesFormat, Comp, and_assoc]

theorem dumpCreate_walks :
    Walks .outside (dumpCreate msg)
      (Comp (record msg 4 8) (Comp (attributesFormat msg) (createTailFormat msg))) := by
  refine (dumpField_walks 4 8).comp (dumpAttributes_walks.comp ⟨?_, ?_⟩)
  · rintro p q ⟨_, ⟨-, rfl⟩, hlayout⟩
    have hforward := (dumpString_walks.optional _).forward hlayout
    omega
  · intro p hp
    have hlayout : Walks .outside
        (dumpWhen (toInt32 (param msg (p + (4 : Nat)) 4) = pvfsSysLayoutList) (dumpString msg))
        (optional (toInt32 (param msg (p + (4 : Nat)) 4) = pvfsSysLayoutList)
          (stringFormat msg)) :=
      dumpString_walks.optional _
    refine (field_checked hp <| read_checked (by omega) <| field_checked (by omega) <|
      hlayout.checked (by omega)).congr fun q => ?_
    simp only [createTailFormat, Comp, record, Nat.cast_ofNat, add_assoc, Int.reduceAdd]
    constructor
    · rintro ⟨-, -, hin, htail⟩
      exact ⟨_, ⟨hin, rfl⟩, htail⟩
    · rintro ⟨_, ⟨hin, rfl⟩, htail⟩
      exact ⟨by omega, by omega, hin, htail⟩

theorem dumpMkdir_walks :
    Walks .outside (dumpMkdir msg)
      (Comp (record msg 4 8) (Comp (attributesFormat msg) (record msg 8 8))) := by
  refine (dumpField_walks 4 8).comp (dumpAttributes_walks.comp ⟨?_, ?_⟩)
  · rintro p q ⟨-, rfl⟩
    omega
  · intro p hp
    have hcount : Checked .outside (dumpField msg 4 4 (p + 4)) (record msg 4 4 (p + 4)) :=
      (dumpField_walks 4 4).checked (by omega)
    refine hcount.congr fun q => ?_
    simp only [record, Nat.cast_ofNat, add_assoc, Int.reduceAdd]

/-- The metadata walker stays inside exactly where the body's format fits. -/
theorem dumpMetaBody_fits (hp : 0 ≤ p) {op : PvfsServerOp} :
    dumpMetaBody msg p op ≠ .error .outside ↔ Fits (metaFormat msg op) p := by
  cases op
  case getattr =>
    refine (readParam_fits hp 8 <| (dumpField_walks 4 4).bind_fits (by omega) fun q hq =>
      readParam_pure_fits hq 4 _).trans ?_
    simp (disch := decide) only [record_comp_record, Nat.reduceAdd, metaFormat]
  case readdir =>
    refine ((dumpField_walks 8 8).bind_fits hp fun q hq =>
      (dumpField_walks 4 4).bind_fits hq fun q hq => (dumpField_walks 4 4).bind_fits hq
        fun q hq => (dumpField_walks 8 8).bind_pure_fits hq).trans ?_
    simp (disch := decide) only [record_comp_record, Nat.reduceAdd, metaFormat]
  case listattr =>
    refine ((dumpField_walks 4 4).bind_fits hp fun q hq =>
      (dumpField_walks 4 8).bind_fits hq fun q hq =>
        (dumpField_walks 4 4).bind_pure_fits hq).trans ?_
    simp (disch := decide) only [record_comp_record, Nat.reduceAdd, metaFormat]
  case create => exact dumpCreate_walks.bind_pure_fits hp
  case mkdir => exact dumpMkdir_walks.bind_pure_fits hp
  case statfs => exact (dumpField_walks 4 8).bind_pure_fits hp
  case crdirent =>
    refine (dumpString_walks.bind_fits hp fun q hq => (dumpField_walks 8 8).bind_fits hq
      fun q hq => (dumpField_walks 8 8).bind_fits hq fun q hq =>
        (dumpField_walks 4 4).bind_pure_fits hq).trans ?_
    simp (disch := decide) only [record_comp_record, Nat.reduceAdd, metaFormat]
  case rmdirent =>
    refine (dumpString_walks.bind_fits hp fun q hq => (dumpField_walks 8 8).bind_fits hq
      fun q hq => (dumpField_walks 4 4).bind_pure_fits hq).trans ?_
    simp (disch := decide) only [record_comp_record, Nat.reduceAdd, metaFormat]
  case lookupPath =>
    refine (dumpString_walks.bind_fits hp fun q hq => (dumpField_walks 4 8).bind_fits hq
      fun q hq => (dumpField_walks 8 8).bind_fits hq fun q hq =>
        (dumpField_walks 4 4).bind_pure_fits hq).trans ?_
    simp (disch := decide) only [record_comp_record, Nat.reduceAdd, metaFormat]
  case remove =>
    refine (readParam_fits hp 8 <| readParam_pure_fits (by omega) 4 _).trans ?_
    simp (disch := decide) only [record_comp_record, Nat.reduceAdd, metaFormat]
  all_goals simp [dumpMetaBody, metaFormat, Fits, pure, Except.pure]

/-! ## Hints -/

def dumpHint (values : Bool) (msg : List UInt8) (p : Int) : Except DumpFault Int := do
  let r ← hintTurn values msg p 0
  return r.1 + r.2

theorem hintTurn_shift (values : Bool) {offset : Int} {length : Nat} :
    hintTurn values msg offset length = hintTurn values msg (offset + length) 0 := by
  simp [hintTurn]

theorem dumpHint_walks (values : Bool) :
    Walks .outside (dumpHint values msg) (hintFormat values msg) where
  forward := by
    rintro p q ⟨-, rfl, -⟩
    split <;> omega
  checked := by
    intro p hp
    have hvalue : ∀ length : Nat, Checked .outside
        (if values then readParam msg (p + 4) length >>= fun _ => pure (p + 4 + length)
          else pure (p + 4 + length) : Except DumpFault Int)
        fun q => (values → p + 4 + length ≤ msg.length) ∧ q = p + 4 + length := by
      intro length
      cases values
      · simpa using Checked.pure (p + 4 + (length : Int))
      · simpa using read_pure_checked (by omega) fun _ => p + 4 + (length : Int)
    have hturn : dumpHint values msg p = readParam msg p 4 >>= fun hintType =>
        if values then
          readParam msg (p + 4) (if hintType = pintHintHandle then 8 else 4) >>= fun _ =>
            pure (p + 4 + (if hintType = pintHintHandle then 8 else 4 : Nat))
        else pure (p + 4 + (if hintType = pintHintHandle then 8 else 4 : Nat)) := by
      simp only [dumpHint, hintTurn, Nat.cast_zero, add_zero, bind_assoc]
      refine bind_congr fun hintType => ?_
      cases values <;> simp
    rw [hturn]
    refine (read_checked hp (hvalue _)).congr fun q => ?_
    simp only [hintFormat, Nat.cast_ofNat]
    by_cases htype : param msg p 4 = pintHintHandle <;> simp only [htype, if_true, if_false]
    · constructor <;> rintro ⟨hin, h₁, h₂⟩
      · exact ⟨hin, by omega, fun hv => by have := h₁ hv; omega⟩
      · exact ⟨hin, fun hv => by have := h₂ hv; omega, by omega⟩
    · constructor <;> rintro ⟨hin, h₁, h₂⟩
      · exact ⟨hin, by omega, fun hv => by have := h₁ hv; omega⟩
      · exact ⟨hin, fun hv => by have := h₂ hv; omega, by omega⟩

/-- The offsets of a hint loop run one field behind. -/
theorem hintLoop_eq_iterate (values : Bool) {offset : Int} {length : Nat} :
    hintLoop values msg n offset length = iterate (dumpHint values msg) n (offset + length) := by
  induction n generalizing offset length with
  | zero => rfl
  | succ n ih =>
    rw [hintLoop, iterate, dumpHint, hintTurn_shift, bind_assoc]
    refine bind_congr fun r => ?_
    rw [pure_bind, ← ih]

/-- The hint list, from its count at byte 48 on. -/
theorem dumpHints_checked (values : Bool) :
    Checked .outside (dumpHints values msg) fun q =>
      (52 : Int) ≤ msg.length ∧ hintsFormat values msg 52 q := by
  have hloop : dumpHints values msg = readParam msg 48 4 >>= fun v =>
      iterate (dumpHint values msg) v.toNat 52 :=
    bind_congr fun _ => hintLoop_eq_iterate values
  have hwalk : Walks .outside (iterate (dumpHint values msg) (param msg 48 4).toNat)
      (hintsFormat values msg) :=
    (dumpHint_walks values).iterate _
  rw [hloop]
  exact read_checked (by omega) (hwalk.checked (by omega))

theorem hintsFormat_forward {values : Bool} (h : hintsFormat values msg p q) : p ≤ q :=
  ((dumpHint_walks values).iterate _).forward h

/-! ## I/O requests -/

/-- The I/O type in the body at `p`. -/
def ioTypeAt (small : Bool) (msg : List UInt8) (p : Int) : Int :=
  toInt32 (param msg (if small then p + 12 else p + 16) 4)

theorem dumpHeader2_checked (small : Bool) :
    Checked .outside (dumpHeader2 msg small) fun v =>
      ∃ e, ((52 : Int) ≤ msg.length ∧ hintsFormat false msg 52 e)
        ∧ e + (if small then 16 else 20) ≤ msg.length ∧ v = ioTypeAt small msg e := by
  refine (dumpHints_checked false).bind fun e he => ?_
  have hforward := hintsFormat_forward he.2
  refine (read_pure_checked (by split <;> omega) _).congr fun v => ?_
  cases small <;> simp [ioTypeAt, add_assoc]

theorem dumpDistName_checked (hp : 0 ≤ p) :
    Checked .outside (dumpDistName msg p) fun r =>
      stringFormat msg p r.1 ∧ r.2 = distNameAt msg p := by
  have hchars : Checked .outside (readBytes msg (p + 4) (toInt32 (param msg p 4))) _ :=
    readBytes_checked (by omega)
  refine (read_checked hp (hchars.bind fun s _ => Checked.pure _)).congr ?_
  rintro ⟨q, name⟩
  have hpadded : ∀ size : Int,
      (if size + 4 - (size + 4) / 8 * 8 ≠ 0 then 8 - (size + 4 - (size + 4) / 8 * 8) else 0)
        = paddedTo8 (4 + size) - (4 + size) := by
    intro size
    unfold paddedTo8
    split <;> omega
  simp only [Prod.mk.injEq, hpadded]
  simp only [toInt32_param]
  constructor
  · rintro ⟨hlength, s, ⟨⟨hsize, hin⟩, rfl⟩, rfl, rfl⟩
    exact ⟨⟨hlength, hsize, hin, by ring⟩, rfl⟩
  · rintro ⟨⟨hlength, hsize, hin, rfl⟩, rfl⟩
    exact ⟨hlength, _, ⟨⟨hsize, hin⟩, rfl⟩, by ring, rfl⟩

theorem dumpDistribution_checked (hp : 0 ≤ p) {distName : List UInt8}
    (hname : distName ∈ distNames) :
    Checked .outside (dumpDistribution msg p distName) fun r =>
      distFormat msg distName p r.1
        ∧ r.2 = if distName = simpleStripe then some (toInt32 (param msg p 8)) else none := by
  simp only [distNames, List.mem_cons, List.not_mem_nil, or_false] at hname
  obtain rfl | rfl | rfl | rfl := hname
  · refine (Checked.pure (p, none)).congr ?_
    rintro ⟨q, stripe⟩
    simp [distFormat, show basicDist ≠ simpleStripe by decide, eq_comm]
  · have hrun : dumpDistribution msg p varstripDist = readStrlen msg p >>= fun length =>
        pure (p + length + (8 - length % 8) % 8, none) := rfl
    have hlength : Checked .outside (readStrlen msg p) fun length =>
        0 ∈ msg.drop p.toNat ∧ length = (cChars (msg.drop p.toNat)).length :=
      (Checked.guard _ _).congr fun v => by simp [hp]
    rw [hrun]
    refine (hlength.bind fun length _ => Checked.pure _).congr ?_
    rintro ⟨q, stripe⟩
    have hpadded : ∀ length : Int,
        p + length + (8 - length % 8) % 8 = p + paddedTo8 length := by
      intro length
      unfold paddedTo8
      omega
    simp only [hpadded]
    simp [distFormat, varstripFormat, show varstripDist ≠ basicDist by decide,
      show varstripDist ≠ simpleStripe by decide, and_assoc]
  · have hrun : dumpDistribution msg p simpleStripe = readParam msg p 8 >>= fun stripeSize =>
        pure (p + 8, some (toInt32 stripeSize)) := rfl
    rw [hrun]
    refine (read_pure_checked hp _).congr ?_
    rintro ⟨q, stripe⟩
    simp [distFormat, record, show simpleStripe ≠ basicDist by decide,
      show simpleStripe ≠ varstripDist by decide, and_assoc]
  · have hrun : dumpDistribution msg p twodStripe = readParam msg p 4 >>= fun _ =>
        readParam msg (p + 4) 8 >>= fun _ => pure (p + 4 + 8 + 4, none) := rfl
    rw [hrun]
    refine (read_checked hp <| read_pure_checked (by omega) _).congr ?_
    rintro ⟨q, stripe⟩
    simp only [distFormat, record, show twodStripe ≠ basicDist by decide,
      show twodStripe ≠ varstripDist by decide, show twodStripe ≠ simpleStripe by decide, if_false,
      Prod.mk.injEq, Nat.cast_ofNat]
    constructor
    · rintro ⟨-, hin, rfl, rfl⟩
      exact ⟨⟨by omega, by omega⟩, rfl⟩
    · rintro ⟨⟨hin, rfl⟩, rfl⟩
      exact ⟨by omega, by omega, by omega, rfl⟩

theorem dumpDistribution_unknown {distName : List UInt8} (hname : distName ∉ distNames) :
    dumpDistribution msg p distName = .error (.exit (-1)) := by
  simp only [distNames, List.mem_cons, List.not_mem_nil, not_or] at hname
  simp [dumpDistribution, hname]

/-- The sizes at `p`: file offset, aggregate size, and the bytes of a small I/O. -/
def sizesAt (small : Bool) (msg : List UInt8) (p : Int) : Int × Int × Option Int :=
  (toUInt64 (param msg p 8), toUInt64 (param msg (p + 8) 8),
    if small then some (toInt32 (param msg (p + 8 + 8) 8)) else none)

theorem dumpSizes_checked (hp : 0 ≤ p) (small : Bool) :
    Checked .outside (dumpSizes msg p small) fun r =>
      p + (if small then 24 else 16) ≤ msg.length ∧ r = sizesAt small msg p := by
  cases small
  · refine (read_checked hp <| read_pure_checked (by omega) _).congr fun r => ?_
    simp only [sizesAt, Bool.false_eq_true, if_false, Nat.cast_ofNat]
    exact ⟨fun ⟨_, hin, hr⟩ => ⟨by omega, hr⟩, fun ⟨hin, hr⟩ => ⟨by omega, by omega, hr⟩⟩
  · refine (read_checked hp <| read_checked (by omega) <| read_pure_checked (by omega) _).congr
      fun r => ?_
    simp only [sizesAt, if_true, Nat.cast_ofNat]
    exact ⟨fun ⟨_, _, hin, hr⟩ => ⟨by omega, hr⟩,
      fun ⟨hin, hr⟩ => ⟨by omega, by omega, by omega, hr⟩⟩

theorem dumpSizes_negative (hp : ¬ 0 ≤ p) (small : Bool) :
    dumpSizes msg p small = .error .outside := by
  simp [dumpSizes, readParam, hp, bind, Except.bind]

theorem dumpSizes_tail_fits {β : Type} (hp : 0 ≤ p) (small : Bool)
    (g : Int → Int × Int × Option Int → β) :
    (readParam msg p 4 >>= fun v =>
        dumpSizes msg (toInt32 (p + 4 + 4 + (v + 1) * 80)) small >>= fun s => pure (g v s))
        ≠ .error .outside
      ↔ Fits (sizesFormat small msg) p := by
  rw [readParam_ne hp, bind_pure_ne, ← nestedEnd]
  by_cases hend : 0 ≤ nestedEnd msg p
  · rw [(dumpSizes_checked hend small).ne_iff]
    cases small <;> simp [Fits, sizesFormat, record, hend]
  · rw [dumpSizes_negative hend]
    simp [Fits, sizesFormat, hend]

theorem dumpSizes_tail_eq_ok {β : Type} (hp : 0 ≤ p) (small : Bool)
    (g : Int × Int × Option Int → β) {b : β} :
    (readParam msg p 4 >>= fun v =>
        dumpSizes msg (toInt32 (p + 4 + 4 + (v + 1) * 80)) small >>= fun s => pure (g s)) = .ok b
      ↔ p + 4 ≤ msg.length ∧ 0 ≤ nestedEnd msg p
        ∧ nestedEnd msg p + (if small then 24 else 16) ≤ msg.length
        ∧ b = g (sizesAt small msg (nestedEnd msg p)) := by
  rw [readParam_eq_ok hp, ← nestedEnd]
  by_cases hend : 0 ≤ nestedEnd msg p
  · rw [(dumpSizes_checked hend small).bind_eq_ok]
    simp [hend, pure, Except.pure, eq_comm]
  · rw [dumpSizes_negative hend]
    simp [hend, bind, Except.bind]

theorem distFormat_forward {distName : List UInt8} (h : distFormat msg distName p q) : p ≤ q := by
  unfold distFormat at h
  split at h
  · exact h.le
  split at h
  · obtain ⟨-, rfl⟩ := h
    unfold paddedTo8
    omega
  split at h <;> obtain ⟨-, rfl⟩ := h <;> omega

theorem dumpDistribution_fits {β : Type} (hp : 0 ≤ p) {distName : List UInt8}
    {f : Int × Option Int → Except DumpFault β} {R : Format}
    (hf : ∀ r, 0 ≤ r.1 → (f r ≠ .error .outside ↔ Fits R r.1)) :
    dumpDistribution msg p distName >>= f ≠ .error .outside
      ↔ (distName ∈ distNames → Fits (Comp (distFormat msg distName) R) p) := by
  by_cases hname : distName ∈ distNames
  · rw [(dumpDistribution_checked hp hname).bind_value_ne, fits_comp]
    constructor
    · rintro ⟨q, hdist, hne⟩ -
      exact ⟨q, hdist, (hf _ (hp.trans (distFormat_forward hdist))).mp hne⟩
    · intro h
      obtain ⟨q, hdist, hfits⟩ := h hname
      exact ⟨q, hdist, (hf _ (hp.trans (distFormat_forward hdist))).mpr hfits⟩
  · rw [dumpDistribution_unknown hname]
    simp [hname, bind, Except.bind]

theorem fits_ioFormat {small : Bool} :
    Fits (ioFormat small msg) p ↔ p + ioHead small ≤ msg.length
      ∧ ∃ m, stringFormat msg (p + ioHead small) m
        ∧ (distNameAt msg (p + ioHead small) ∈ distNames →
          Fits (Comp (distFormat msg (distNameAt msg (p + ioHead small)))
            (sizesFormat small msg)) m) := by
  rw [ioFormat, fits_comp]
  constructor
  · rintro ⟨_, ⟨hin, rfl⟩, q, m, hstring, ⟨-, htail⟩ | ⟨hname, -⟩⟩
    · exact ⟨hin, m, hstring, fun _ => ⟨q, htail⟩⟩
    · exact ⟨hin, m, hstring, fun hdist => absurd hdist hname⟩
  · rintro ⟨hin, m, hstring, htail⟩
    refine ⟨_, ⟨hin, rfl⟩, ?_⟩
    by_cases hname : distNameAt msg (p + ioHead small) ∈ distNames
    · obtain ⟨q, hq⟩ := htail hname
      exact ⟨q, m, hstring, .inl ⟨hname, hq⟩⟩
    · exact ⟨m, m, hstring, .inr ⟨hname, rfl⟩⟩

theorem dumpIoRequest_fits (hp : 0 ≤ p) (small : Bool) :
    dumpIoRequest msg p small ≠ .error .outside ↔ Fits (ioFormat small msg) p := by
  obtain ⟨b, hb, hbase⟩ : ∃ b : Int, (if small then p + 16 else p + 24) = b
      ∧ b + 8 = p + ioHead small := by
    cases small <;> exact ⟨_, rfl, by simp [ioHead, add_assoc]⟩
  have hb0 : 0 ≤ b := by cases small <;> simp at hb <;> omega
  rw [dumpIoRequest, hb, readParam_ne hb0, readParam_ne (by omega),
    (dumpDistName_checked (by omega)).bind_value_ne, fits_ioFormat, ← hbase]
  constructor
  · rintro ⟨-, hin, m, hstring, hne⟩
    have hm : b + 8 ≤ m := dumpString_walks.forward hstring
    have hm0 : 0 ≤ m := by omega
    exact ⟨by omega, m, hstring,
      (dumpDistribution_fits hm0 fun r hr => dumpSizes_tail_fits hr small _).mp hne⟩
  · rintro ⟨hin, m, hstring, hfits⟩
    have hm : b + 8 ≤ m := dumpString_walks.forward hstring
    have hm0 : 0 ≤ m := by omega
    exact ⟨by omega, by omega, m, hstring,
      (dumpDistribution_fits hm0 fun r hr => dumpSizes_tail_fits hr small _).mpr hfits⟩

/-- The record of an accepted request with its body at `p`, the parameters of
the distribution at `m` and the sizes at `e`. -/
def distAt (small : Bool) (msg : List UInt8) (p m e : Int) : DumpedDist where
  currentServerNumber := toInt32 (param msg (p + ioHead small - 8) 4)
  totalServerNumber := toInt32 (param msg (p + ioHead small - 4) 4)
  distName := distNameAt msg (p + ioHead small)
  stripeSize :=
    if distNameAt msg (p + ioHead small) = simpleStripe then some (toInt32 (param msg m 8))
    else none
  aggregateSize := (sizesAt small msg e).2.1
  dataFileOffset := (sizesAt small msg e).1
  smallTotal := (sizesAt small msg e).2.2

/-- An I/O request is accepted where its name is recognised and its sections
are inside. -/
theorem dumpIoRequest_eq_ok (hp : 0 ≤ p) {small : Bool} {dist : DumpedDist} :
    dumpIoRequest msg p small = .ok dist
      ↔ p + ioHead small ≤ msg.length
        ∧ ∃ m q, stringFormat msg (p + ioHead small) m
          ∧ distNameAt msg (p + ioHead small) ∈ distNames
          ∧ distFormat msg (distNameAt msg (p + ioHead small)) m q
          ∧ q + 4 ≤ msg.length ∧ 0 ≤ nestedEnd msg q
          ∧ nestedEnd msg q + (if small then 24 else 16) ≤ msg.length
          ∧ dist = distAt small msg p m (nestedEnd msg q) := by
  obtain ⟨b, hb, hbase⟩ : ∃ b : Int, (if small then p + 16 else p + 24) = b
      ∧ p + ioHead small = b + 8 := by
    cases small <;> exact ⟨_, rfl, by simp [ioHead, add_assoc]⟩
  have hb0 : 0 ≤ b := by cases small <;> simp at hb <;> omega
  have hserver : b + 8 - 8 = b := by omega
  have htotal : b + 8 - 4 = b + 4 := by omega
  simp only [distAt, hbase, hserver, htotal]
  rw [dumpIoRequest, hb, readParam_eq_ok hb0, readParam_eq_ok (by omega),
    (dumpDistName_checked (by omega)).bind_value_eq_ok]
  constructor
  · rintro ⟨-, hin, m, hstring, hrun⟩
    have hm : b + 8 ≤ m := dumpString_walks.forward hstring
    have hm0 : 0 ≤ m := by omega
    by_cases hname : distNameAt msg (b + 8) ∈ distNames
    · obtain ⟨q, hdist, hrun⟩ := (dumpDistribution_checked hm0 hname).bind_value_eq_ok.mp hrun
      have hq : m ≤ q := distFormat_forward hdist
      have hq0 : 0 ≤ q := by omega
      obtain ⟨hnum, hend, hsizes, rfl⟩ := (dumpSizes_tail_eq_ok hq0 small _).mp hrun
      exact ⟨by omega, m, q, hstring, hname, hdist, hnum, hend, hsizes, rfl⟩
    · rw [dumpDistribution_unknown hname] at hrun
      cases hrun
  · rintro ⟨hin, m, q, hstring, hname, hdist, hnum, hend, hsizes, rfl⟩
    have hm : b + 8 ≤ m := dumpString_walks.forward hstring
    have hm0 : 0 ≤ m := by omega
    have hq : m ≤ q := distFormat_forward hdist
    have hq0 : 0 ≤ q := by omega
    refine ⟨by omega, by omega, m, hstring, ?_⟩
    refine (dumpDistribution_checked hm0 hname).bind_value_eq_ok.mpr ⟨q, hdist, ?_⟩
    exact (dumpSizes_tail_eq_ok hq0 small _).mpr ⟨hnum, hend, hsizes, rfl⟩

/-! ## Messages -/

/-- `pvfs_operation` of a message. -/
def operationAt (msg : List UInt8) : PvfsServerOp := .ofCode (param msg 32 4)

theorem dumpHeader_fits (h : isIoOp (operationAt msg) = true) :
    dumpHeader msg ≠ .error .outside
      ↔ (52 : Int) ≤ msg.length
        ∧ Fits (Comp (hintsFormat false msg) (ioFormat (operationAt msg == .smallIo) msg)) 52 := by
  rw [dumpHeader, readParam_ne (by omega), readParam_ne (by omega)]
  rw [operationAt] at h
  simp only [h, if_true, operationAt]
  rw [(dumpHints_checked false).bind_ne, fits_comp]
  constructor
  · rintro ⟨-, -, e, ⟨hcount, hhints⟩, hne⟩
    have he := hintsFormat_forward hhints
    exact ⟨hcount, e, hhints, (dumpIoRequest_fits (by omega) _).mp (bind_pure_ne.mp hne)⟩
  · rintro ⟨hcount, e, hhints, hfits⟩
    have he := hintsFormat_forward hhints
    exact ⟨by omega, by omega, e, ⟨hcount, hhints⟩,
      bind_pure_ne.mpr ((dumpIoRequest_fits (by omega) _).mpr hfits)⟩

theorem dumpHeader_eq_ok (h : isIoOp (operationAt msg) = true) {dist : DumpedDist} :
    dumpHeader msg = .ok (some dist)
      ↔ (52 : Int) ≤ msg.length ∧ ∃ e, hintsFormat false msg 52 e
        ∧ dumpIoRequest msg e (operationAt msg == .smallIo) = .ok dist := by
  rw [dumpHeader, readParam_eq_ok (by omega), readParam_eq_ok (by omega)]
  rw [operationAt] at h
  simp only [h, if_true, operationAt]
  rw [(dumpHints_checked false).bind_eq_ok]
  constructor
  · rintro ⟨-, -, e, ⟨hcount, hhints⟩, hrun⟩
    obtain ⟨dist', hbody, hdist⟩ := Machine.bind_eq_ok.mp hrun
    obtain rfl : dist' = dist := by simpa [pure, Except.pure] using hdist
    exact ⟨hcount, e, hhints, hbody⟩
  · rintro ⟨hcount, e, hhints, hrun⟩
    exact ⟨by omega, by omega, e, ⟨hcount, hhints⟩, Machine.bind_eq_ok.mpr ⟨dist, hrun, rfl⟩⟩

theorem dumpMetaHeader_fits :
    dumpMetaHeader msg ≠ .error .outside
      ↔ (52 : Int) ≤ msg.length
        ∧ Fits (Comp (hintsFormat true msg) (metaFormat msg (operationAt msg))) 52 := by
  rw [dumpMetaHeader, readParam_ne (by omega), readParam_ne (by omega),
    (dumpHints_checked true).bind_ne, fits_comp]
  constructor
  · rintro ⟨-, -, e, ⟨hcount, hhints⟩, hne⟩
    have he := hintsFormat_forward hhints
    exact ⟨hcount, e, hhints, (dumpMetaBody_fits (by omega)).mp hne⟩
  · rintro ⟨hcount, e, hhints, hfits⟩
    have he := hintsFormat_forward hhints
    exact ⟨by omega, by omega, e, ⟨hcount, hhints⟩, (dumpMetaBody_fits (by omega)).mpr hfits⟩

/-- An I/O request holds its hints and its I/O type, and what the scheduler
wants to know if it is asked. -/
def IoFits (schedulerOn small : Bool) (msg : List UInt8) : Prop :=
  (52 : Int) ≤ msg.length ∧ ∃ e, hintsFormat false msg 52 e
    ∧ e + (if small then 16 else 20) ≤ msg.length
    ∧ (schedulesIo schedulerOn small (ioTypeAt small msg e) → Fits (ioFormat small msg) e)

/-- A message holds every section it announces for its operation. -/
structure MessageFits (schedulerOn acceptMeta : Bool) (msg : List UInt8) : Prop where
  operation : (36 : Int) ≤ msg.length
  io (h : isIoOp (operationAt msg)) : IoFits schedulerOn (operationAt msg == .smallIo) msg
  metadata (h : schedulerOn && acceptMeta && isMeta (operationAt msg)) :
    (52 : Int) ≤ msg.length
      ∧ Fits (Comp (hintsFormat true msg) (metaFormat msg (operationAt msg))) 52

theorem parseIo_fits {schedulerOn : Bool} (h : isIoOp (operationAt msg) = true) :
    parseIo schedulerOn msg (operationAt msg == .smallIo) ≠ .error .outside
      ↔ IoFits schedulerOn (operationAt msg == .smallIo) msg := by
  rw [parseIo, (dumpHeader2_checked _).bind_ne]
  have hrest : ∀ e, hintsFormat false msg 52 e → (52 : Int) ≤ msg.length → ∀ ioType,
      ((if schedulesIo schedulerOn (operationAt msg == .smallIo) ioType then
          dumpHeader msg >>= fun dist => pure (.io ioType dist)
        else pure (.io ioType none) : Except DumpFault ParsedRequest) ≠ .error .outside
      ↔ (schedulesIo schedulerOn (operationAt msg == .smallIo) ioType →
        Fits (ioFormat (operationAt msg == .smallIo) msg) e)) := by
    intro e he hcount ioType
    split
    · rename_i hsched
      rw [bind_pure_ne, dumpHeader_fits h, fits_comp]
      constructor
      · rintro ⟨-, e', he', hfits⟩ -
        rwa [(dumpHints_checked false).unique ⟨hcount, he⟩ ⟨hcount, he'⟩]
      · exact fun hfits => ⟨hcount, e, he, hfits hsched⟩
    · rename_i hsched
      simp [hsched, pure, Except.pure]
  constructor
  · rintro ⟨ioType, ⟨e, ⟨hcount, he⟩, hin, htype⟩, hne⟩
    rw [htype] at hne
    exact ⟨hcount, e, he, hin, (hrest e he hcount _).mp hne⟩
  · rintro ⟨hcount, e, he, hin, hfits⟩
    exact ⟨_, ⟨e, ⟨hcount, he⟩, hin, rfl⟩, (hrest e he hcount _).mpr hfits⟩

theorem parseMessage_fits {schedulerOn acceptMeta : Bool} :
    parseMessage schedulerOn acceptMeta msg ≠ .error .outside
      ↔ MessageFits schedulerOn acceptMeta msg := by
  rw [parseMessage, readParam_ne (by omega)]
  change _ ∧ (if isIoOp (operationAt msg) then
      parseIo schedulerOn msg (operationAt msg == .smallIo)
    else if schedulerOn && acceptMeta && isMeta (operationAt msg) then
      dumpMetaHeader msg >>= fun header => pure (.metadata header)
    else pure .other) ≠ _ ↔ _
  have hexcl : isMeta (operationAt msg) = true → isIoOp (operationAt msg) ≠ true := by
    cases operationAt msg <;> simp [isMeta, isIoOp]
  by_cases hio : isIoOp (operationAt msg) = true
  · have hmeta : ¬ (schedulerOn && acceptMeta && isMeta (operationAt msg)) = true := by
      simp only [Bool.and_eq_true]
      exact fun h => hexcl h.2 hio
    rw [if_pos hio, parseIo_fits hio]
    exact ⟨fun ⟨hop, h⟩ => ⟨hop, fun _ => h, fun h => absurd h hmeta⟩,
      fun h => ⟨h.operation, h.io hio⟩⟩
  rw [if_neg hio]
  by_cases hmeta : (schedulerOn && acceptMeta && isMeta (operationAt msg)) = true
  · rw [if_pos hmeta, bind_pure_ne, dumpMetaHeader_fits]
    exact ⟨fun ⟨hop, h⟩ => ⟨hop, fun h => absurd h hio, fun _ => h⟩,
      fun h => ⟨h.operation, h.metadata hmeta⟩⟩
  · rw [if_neg hmeta]
    exact ⟨fun ⟨hop, _⟩ => ⟨hop, fun h => absurd h hio, fun h => absurd h hmeta⟩,
      fun h => ⟨h.operation, by simp [pure, Except.pure]⟩⟩

/-- The message that is parsed, if any: a whole header, no continuation, and
as many bytes as the size says. -/
def parsedMessage (continues : Int → Bool) (visible : List UInt8) : Option (List UInt8) :=
  if bmiHeaderLength ≤ visible.length ∧ ¬ continues (param visible 8 8) then
    peekMessage visible (param visible 16 8)
  else none

/-- A field of the header is the same in what is behind the header. -/
theorem param_take {k : Nat} (h : p.toNat + n ≤ k) : param (msg.take k) p n = param msg p n := by
  rw [param, param, outputParam, outputParam, List.drop_take, List.take_take,
    Nat.min_eq_left (by omega)]

/-- An I/O request that announces one hint and ends there. -/
def hintless : List UInt8 :=
  [0xbf, 0xca, 0, 0, 0, 0, 0, 0] ++ [1, 0, 0, 0, 0, 0, 0, 0] ++ [28, 0, 0, 0, 0, 0, 0, 0]
    ++ [0, 0, 0, 0] ++ [0, 0, 0, 0] ++ [3, 0, 0, 0] ++ List.replicate 12 0 ++ [1, 0, 0, 0]

end PvfsProxy
