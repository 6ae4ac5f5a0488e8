import PvfsProxy.Lib.CString
import PvfsProxy.Lib.Loops
import PvfsProxy.MainLoop

/-!
# Rewriting the ports of the server configuration

`change_port` of `utility.c` with its accesses checked, on the bytes of the
configuration before its NUL; pointers into the text are offsets. The loop
goes from one `tcp://` to the next `:`, writes there if a line end follows
anywhere, and goes on with the next `tcp://` behind that colon. What it
writes is `3335`, whatever the arguments are. Where the checked function
returns, `PvfsProxy.changePort` has the same text (`changePort_refines`).

`Yields pre s out` says that the loop, with `pre` behind it, turns the rest
`s` of the text into `out`; the lemmas about it take a text apart from the
front, and `change_port_rewrites` puts them together.
-/

namespace PvfsProxy.ConfigText

open CString Loops

inductive TextFault where
  /-- a string function on NULL -/
  | null
  /-- a read or write past the NUL -/
  | outside
deriving DecidableEq

def colon : UInt8 := 58

def newline : UInt8 := 10

def hardCodedPort : List UInt8 := [51, 51, 51, 53]

/-- One turn of the loop, on the text and `temp`. -/
def changePortTurn :
    List UInt8 × Option Nat → Except (Stop TextFault) (List UInt8 × Option Nat)
  | (text, none) => .ok (text, none)
  | (text, some temp) =>
    if text.length < temp + 7 then .error (.fault .outside)
    else
      match strstr text (temp + 7) [colon] with
      -- `strstr(temp2, "tcp://")` with `temp2 == NULL`
      | none => .error (.fault .null)
      | some temp2 =>
        if strstr text temp2 [newline] = none then .ok (text, strstr text temp2 tcpPrefix)
        -- writing over the NUL leaves the next `strstr` without an end
        else if text.length < temp2 + 1 + 4 then .error (.fault .outside)
        else
          let text := text.take (temp2 + 1) ++ hardCodedPort ++ text.drop (temp2 + 1 + 4)
          .ok (text, strstr text temp2 tcpPrefix)

/-- `change_port`, with so many turns for the loop: the text it leaves. -/
def changePort (turns : Nat) (buffer : List UInt8) (_gotSize : Int)
    (_strFrom _strTo : List UInt8) : Except (Stop TextFault) (List UInt8) := do
  let last ← whileLoop (fun s => s.2.isSome) changePortTurn turns
    (buffer, strstr buffer 0 tcpPrefix)
  return last.1

/-! ## Configuration texts -/

def isDigit (c : UInt8) : Bool := decide (48 ≤ c) && decide (c ≤ 57)

/-- A server's address, `tcp://host` or `tcp://host:port`. -/
structure Address where
  host : List UInt8
  port : Option (List UInt8)

def Address.text (a : Address) : List UInt8 :=
  tcpPrefix ++ a.host ++ (a.port.map (colon :: ·)).getD []

structure Address.WellFormed (a : Address) : Prop where
  host_ne : a.host ≠ []
  colon : colon ∉ a.host
  newline : newline ∉ a.host
  port : ∀ p, a.port = some p → p ≠ [] ∧ ∀ c ∈ p, isDigit c = true

/-- A text: what stands before the first address, and every address with what
stands between its line end and the next. -/
def configText (gap : List UInt8) : List (Address × List UInt8) → List UInt8
  | [] => gap
  | (a, next) :: servers => gap ++ a.text ++ newline :: configText next servers

/-- Every `tcp://` of the text is that of an address, and those have their form. -/
structure WellFormed (gap : List UInt8) (servers : List (Address × List UInt8)) : Prop where
  gap : ¬ tcpPrefix <:+: gap
  gaps : ∀ s ∈ servers, ¬ tcpPrefix <:+: s.2
  addresses : ∀ s ∈ servers, s.1.WellFormed

/-- What `change_port` is for: the port `strFrom` becomes `strTo`. -/
def Address.withPort (strFrom strTo : List UInt8) (a : Address) : Address :=
  { a with port := a.port.map fun p => if p = strFrom then strTo else p }

/-- What follows the first colon. -/
def behindColon (s : List UInt8) : List UInt8 := (s.dropWhile (· != colon)).tail

/-- Writing `3335` behind the colon found for an address is right: the port
is to become `3335` or starts with it already; without a port, a colon comes
before the next address, and `3335` stands behind it if a line end does. -/
def PortsHardCoded (strFrom strTo : List UInt8) : List (Address × List UInt8) → Prop
  | [] => True
  | (a, next) :: servers =>
    (match a.port with
      | some p => if p = strFrom then strTo = hardCodedPort else hardCodedPort <+: p
      | none => colon ∈ next
        ∧ (newline ∈ configText (behindColon next) servers → hardCodedPort <+: behindColon next))
    ∧ PortsHardCoded strFrom strTo servers

/-- A 4-digit port. -/
structure FourDigits (s : List UInt8) : Prop where
  length : s.length = 4
  digits : ∀ c ∈ s, isDigit c = true

/-! ## The loop from one place on -/

/-- With `pre` behind it, the loop turns the rest `s` of the text into `out`. -/
def Yields (pre s out : List UInt8) : Prop :=
  ∃ n, whileLoop (fun s => s.2.isSome) changePortTurn n
    (pre ++ s, (firstAt tcpPrefix s).map (pre.length + ·)) = .ok (pre ++ out, none)

section Yields

variable {pre g mid rest s out : List UInt8} {h : UInt8}

theorem yields_none (hs : ¬ tcpPrefix <:+: s) : Yields pre s out ↔ out = s := by
  have hnone : firstAt tcpPrefix s = none := by
    have happend := @firstAt_append _ _ 116 [99, 112, 58, 47, 47] [] (by decide) (.inl rfl) s hs
    rw [List.append_nil] at happend
    exact happend
  simp only [Yields, hnone, Option.map_none]
  constructor
  · rintro ⟨n, hn⟩
    rw [whileLoop_done rfl] at hn
    simpa using hn.symm
  · rintro rfl
    exact ⟨0, rfl⟩

theorem yields_skip (hg : firstAt tcpPrefix (g ++ s) = (firstAt tcpPrefix s).map (g.length + ·)) :
    Yields pre (g ++ s) (g ++ out) ↔ Yields (pre ++ g) s out := by
  simp only [Yields, hg, Option.map_map, ← List.append_assoc, List.length_append]
  simp only [Function.comp_def, Nat.add_assoc]

/-- What a turn does at an address, up to the first colon in reach. -/
theorem changePortTurn_address (hmid : colon ∉ mid) :
    changePortTurn (pre ++ (tcpPrefix ++ h :: (mid ++ colon :: rest)), some pre.length)
      = if newline ∈ rest then
          if rest.length < 4 then .error (.fault .outside)
          else .ok (pre ++ (tcpPrefix ++ h :: (mid ++ [colon])) ++ (hardCodedPort ++ rest.drop 4),
            (firstAt tcpPrefix (hardCodedPort ++ rest.drop 4)).map
              ((pre ++ (tcpPrefix ++ h :: (mid ++ [colon]))).length + ·))
        else .ok (pre ++ (tcpPrefix ++ h :: (mid ++ [colon])) ++ rest,
          (firstAt tcpPrefix rest).map
            ((pre ++ (tcpPrefix ++ h :: (mid ++ [colon]))).length + ·)) := by
  obtain ⟨front, hfront⟩ : ∃ front, front = pre ++ (tcpPrefix ++ h :: mid) := ⟨_, rfl⟩
  have hlen : front.length = pre.length + 7 + mid.length := by
    simp only [hfront, List.length_append, List.length_cons, tcpPrefix, List.length_nil]
    omega
  have htext : pre ++ (tcpPrefix ++ h :: (mid ++ colon :: rest)) = front ++ colon :: rest := by
    simp [hfront]
  have hbehind : pre ++ (tcpPrefix ++ h :: (mid ++ [colon])) = front ++ [colon] := by
    simp [hfront]
  have hroom : ¬ (front ++ colon :: rest).length < pre.length + 7 := by
    simp only [List.length_append, hlen]
    omega
  have hcolon : strstr (front ++ colon :: rest) (pre.length + 7) [colon] = some front.length := by
    have hsplit : front ++ colon :: rest
        = (pre ++ (tcpPrefix ++ [h])) ++ (mid ++ colon :: rest) := by
      simp [hfront]
    have hoff : pre.length + 7 = (pre ++ (tcpPrefix ++ [h])).length := by
      simp [tcpPrefix]
    rw [hsplit, hoff, strstr_append, firstAt_char hmid, ← hoff, hlen]
    rfl
  have hline : strstr (front ++ colon :: rest) front.length [newline] = none ↔ newline ∉ rest := by
    rw [strstr_append, Option.map_eq_none_iff, firstAt_char_eq_none, List.mem_cons, not_or]
    exact and_iff_right (by decide)
  have hnext : ∀ t : List UInt8, strstr (front ++ colon :: t) front.length tcpPrefix
      = (firstAt tcpPrefix t).map ((front ++ [colon]).length + ·) := by
    intro t
    rw [strstr_append, tcpPrefix, firstAt_cons_ne (by decide), Option.map_map]
    congr 1
    funext n
    simp only [Function.comp, List.length_append, List.length_cons, List.length_nil]
    omega
  rw [htext, hbehind]
  simp only [changePortTurn, if_neg hroom, hcolon, hline, ite_not, hnext]
  split
  · have hwrite : (front ++ colon :: rest).length < front.length + 1 + 4 ↔ rest.length < 4 := by
      simp only [List.length_append, List.length_cons]
      omega
    have htake : (front ++ colon :: rest).take (front.length + 1) = front ++ [colon] := by
      rw [List.take_length_add_append]
      rfl
    have hdrop : (front ++ colon :: rest).drop (front.length + 1 + 4) = rest.drop 4 := by
      rw [Nat.add_assoc, List.drop_length_add_append]
      rfl
    simp only [hwrite, htake, hdrop, List.append_assoc, List.nil_append, List.cons_append,
      hnext]
  · simp

theorem yields_at_address : Yields pre (tcpPrefix ++ s) out
    ↔ ∃ t, changePortTurn (pre ++ (tcpPrefix ++ s), some pre.length) = .ok t
      ∧ ∃ n, whileLoop (fun s => s.2.isSome) changePortTurn n t = .ok (pre ++ out, none) := by
  have hzero : firstAt tcpPrefix (tcpPrefix ++ s) = some 0 := firstAt_prefix (by decide)
  rw [Yields, hzero]
  exact exists_whileLoop_iff rfl

/-- The loop at an address: what is behind the colon is overwritten if a line
end follows, and the loop goes on there. -/
theorem yields_address (hmid : colon ∉ mid) :
    Yields pre (tcpPrefix ++ h :: (mid ++ colon :: rest)) (tcpPrefix ++ h :: (mid ++ colon :: out))
      ↔ if newline ∈ rest then 4 ≤ rest.length
            ∧ Yields (pre ++ (tcpPrefix ++ h :: (mid ++ [colon])))
              (hardCodedPort ++ rest.drop 4) out
          else Yields (pre ++ (tcpPrefix ++ h :: (mid ++ [colon]))) rest out := by
  have hout : pre ++ (tcpPrefix ++ h :: (mid ++ colon :: out))
      = pre ++ (tcpPrefix ++ h :: (mid ++ [colon])) ++ out := by simp
  rw [yields_at_address, changePortTurn_address hmid, hout]
  split
  · split
    · next hshort => simp [Nat.not_le.mpr hshort]
    · next hlong => simp [Nat.not_lt.mp hlong, Yields]
  · simp [Yields]

theorem not_yields_address (hmid : colon ∉ mid) :
    ¬ Yields pre (tcpPrefix ++ h :: mid) out := by
  rw [yields_at_address]
  rintro ⟨t, ht, -⟩
  have hsplit : pre ++ (tcpPrefix ++ h :: mid) = (pre ++ (tcpPrefix ++ [h])) ++ mid := by simp
  have hoff : pre.length + 7 = (pre ++ (tcpPrefix ++ [h])).length := by simp [tcpPrefix]
  have hnone : strstr (pre ++ (tcpPrefix ++ h :: mid)) (pre.length + 7) [colon] = none := by
    rw [hsplit, hoff, strstr_append, firstAt_char_eq_none.mpr hmid]
    rfl
  simp only [changePortTurn, hnone] at ht
  split at ht <;> cases ht

theorem le_of_strstr {u pat : List UInt8} {off n : Nat} (hn : strstr u off pat = some n) :
    off ≤ n := by
  obtain ⟨i, -, rfl⟩ := Option.map_eq_some_iff.mp hn
  exact Nat.le_add_right off i

/-- The loop writes only behind where it is. -/
theorem changePortTurn_keeps {g text : List UInt8} {temp : Nat} {t : List UInt8 × Option Nat}
    (hg : g <+: text) (hle : g.length ≤ temp) (ht : changePortTurn (text, some temp) = .ok t) :
    g <+: t.1 ∧ ∀ next, t.2 = some next → g.length ≤ next := by
  simp only [changePortTurn] at ht
  split at ht
  · cases ht
  · split at ht
    · cases ht
    · next temp2 htemp2 =>
        have hbehind : g.length ≤ temp2 := (Nat.le_add_right_of_le hle).trans (le_of_strstr htemp2)
        split at ht
        · obtain rfl := Except.ok.inj ht
          exact ⟨hg, fun next hnext => hbehind.trans (le_of_strstr hnext)⟩
        · split at ht
          · cases ht
          · obtain rfl := Except.ok.inj ht
            refine ⟨?_, fun next hnext => hbehind.trans (le_of_strstr hnext)⟩
            rw [List.append_assoc]
            exact (List.prefix_take_iff.mpr ⟨hg, by omega⟩).trans (List.prefix_append _ _)

theorem Yields.keeps (hy : Yields pre (g ++ s) out)
    (hg : firstAt tcpPrefix (g ++ s) = (firstAt tcpPrefix s).map (g.length + ·)) : g <+: out := by
  obtain ⟨n, hn⟩ := hy
  have hinv := @whileLoop_invariant _ _ (fun s => s.2.isSome) changePortTurn
    (fun s => pre ++ g <+: s.1 ∧ ∀ temp, s.2 = some temp → (pre ++ g).length ≤ temp)
    (fun s t hs hc ht => ?_) _ _ _ ⟨?_, fun temp htemp => ?_⟩ hn
  · exact (List.prefix_append_right_inj pre).mp hinv.1.1
  · obtain ⟨text, temp⟩ := s
    obtain ⟨temp, rfl⟩ := Option.isSome_iff_exists.mp hc
    exact changePortTurn_keeps hs.1 (hs.2 temp rfl) ht
  · rw [← List.append_assoc]
    exact List.prefix_append _ _
  · rw [hg, Option.map_map] at htemp
    obtain ⟨i, -, rfl⟩ := Option.map_eq_some_iff.mp htemp
    simp only [Function.comp, List.length_append]
    omega

end Yields

theorem changePort_iff {buffer out : List UInt8} {gotSize : Int} {strFrom strTo : List UInt8} :
    (∃ turns, changePort turns buffer gotSize strFrom strTo = .ok out) ↔ Yields [] buffer out := by
  have hstart : strstr buffer 0 tcpPrefix = (firstAt tcpPrefix buffer).map (0 + ·) := rfl
  simp only [changePort, hstart, Yields, List.nil_append, List.length_nil]
  constructor
  · rintro ⟨n, hn⟩
    obtain ⟨⟨text, temp⟩, hloop, hout⟩ := Machine.bind_eq_ok.mp hn
    obtain rfl := Machine.pure_eq_ok.mp hout
    have hend := (whileLoop_invariant (I := fun _ => True) (fun _ _ _ _ _ => trivial) trivial
      hloop).2
    obtain rfl : temp = none := by simpa using hend
    exact ⟨n, hloop⟩
  · rintro ⟨n, hn⟩
    exact ⟨n, Machine.bind_eq_ok.mpr ⟨_, hn, rfl⟩⟩

/-! ## The unchecked function -/

theorem bufferText_eq {text : List UInt8} (h : 0 ∉ text) (behind : List UInt8) :
    bufferText (text ++ 0 :: behind) = text := by
  unfold bufferText
  rw [List.takeWhile_append_of_pos]
  · simp
  · intro b hb
    rw [decide_eq_true_eq]
    rintro rfl
    exact h hb

theorem changePortTurn_refines {text : List UInt8} {temp : Nat} {t : List UInt8 × Option Nat}
    (h : 0 ∉ text) (ht : changePortTurn (text, some temp) = .ok t) (bound : Nat)
    (behind : List UInt8) :
    0 ∉ t.1 ∧ t.1.length = text.length ∧ temp + 7 ≤ text.length
      ∧ (∀ next, t.2 = some next → temp + 7 ≤ next)
      ∧ changePortLoop (bound + 1) (text ++ 0 :: behind) (some temp)
        = changePortLoop bound (t.1 ++ 0 :: behind) t.2 := by
  have hcolon : ∀ pos, strstr text pos [58] = strstr text pos [colon] := fun _ => rfl
  have hline : ∀ pos, strstr text pos [10] = strstr text pos [newline] := fun _ => rfl
  simp only [changePortTurn] at ht
  split at ht
  · cases ht
  · next hroom =>
    split at ht
    · cases ht
    · next temp2 htemp2 =>
      have hbehind : temp + 7 ≤ temp2 := le_of_strstr htemp2
      simp only [changePortLoop, bufferText_eq h, hcolon, hline, htemp2]
      split at ht
      · next hnone =>
        obtain rfl := Except.ok.inj ht
        rw [hnone]
        refine ⟨h, rfl, by omega, fun next hnext => hbehind.trans (le_of_strstr hnext), ?_⟩
        dsimp only
        rw [bufferText_eq h]
      · next hsome =>
        split at ht
        · cases ht
        · next hfits =>
          obtain rfl := Except.ok.inj ht
          obtain ⟨_, hline'⟩ := Option.ne_none_iff_exists'.mp hsome
          have hzero : 0 ∉ text.take (temp2 + 1) ++ hardCodedPort ++ text.drop (temp2 + 1 + 4) := by
            simp only [List.mem_append, not_or]
            exact ⟨⟨fun hin => h (List.mem_of_mem_take hin), by decide⟩,
              fun hin => h (List.mem_of_mem_drop hin)⟩
          have hsame : (text ++ 0 :: behind).take (temp2 + 1) ++ [51, 51, 51, 53]
              ++ (text ++ 0 :: behind).drop (temp2 + 5)
              = text.take (temp2 + 1) ++ hardCodedPort ++ text.drop (temp2 + 1 + 4)
                ++ 0 :: behind := by
            rw [List.take_append_of_le_length (by omega), List.drop_append_of_le_length (by omega),
              ← List.append_assoc]
            rfl
          rw [hline', hsame, bufferText_eq hzero]
          refine ⟨hzero, ?_, by omega, fun next hnext => hbehind.trans (le_of_strstr hnext), rfl⟩
          simp only [List.length_append, List.length_take, List.length_drop, hardCodedPort,
            List.length_cons, List.length_nil]
          omega

/-- Every turn moves `temp` on, so the length of the text bounds the turns. -/
theorem changePortLoop_refines : ∀ {n bound : Nat} {text : List UInt8} {temp : Option Nat}
    {t : List UInt8 × Option Nat}, 0 ∉ text →
      (∀ pos, temp = some pos → text.length ≤ pos + bound) →
      whileLoop (fun s => s.2.isSome) changePortTurn n (text, temp) = .ok t →
      ∀ behind, changePortLoop bound (text ++ 0 :: behind) temp = .ok (t.1 ++ 0 :: behind)
  | n, bound, text, none, t, _, _, hn, behind => by
      rw [whileLoop_done rfl] at hn
      obtain rfl := Except.ok.inj hn
      cases bound <;> rfl
  | 0, bound, text, some pos, t, _, _, hn, _ => by
      rw [whileLoop, if_pos Option.isSome_some] at hn
      cases hn
  | n + 1, bound, text, some pos, t, h, hbound, hn, behind => by
      rw [whileLoop, if_pos Option.isSome_some] at hn
      cases hturn : changePortTurn (text, some pos) with
      | error e =>
          rw [hturn] at hn
          cases hn
      | ok u =>
          rw [hturn] at hn
          have hpos := hbound pos rfl
          obtain ⟨hzero, hlen, hroom, hmoved, hloop⟩ :=
            changePortTurn_refines h hturn (bound - 1) behind
          obtain ⟨bound, rfl⟩ : ∃ b, bound = b + 1 := ⟨bound - 1, by omega⟩
          rw [Nat.add_sub_cancel] at hloop
          rw [hloop]
          refine changePortLoop_refines hzero (fun next hnext => ?_) hn behind
          have := hmoved next hnext
          omega

/-- Where the accesses are inside, the function without the checks leaves the
same text. -/
theorem changePort_refines {turns : Nat} {buffer out : List UInt8} {gotSize : Int}
    {strFrom strTo : List UInt8} (h : 0 ∉ buffer)
    (hrun : changePort turns buffer gotSize strFrom strTo = .ok out) (behind : List UInt8) :
    PvfsProxy.changePort (buffer ++ 0 :: behind) = .ok (out ++ 0 :: behind) := by
  obtain ⟨t, hn, hout⟩ := Machine.bind_eq_ok.mp hrun
  obtain rfl := Machine.pure_eq_ok.mp hout
  rw [PvfsProxy.changePort, bufferText_eq h]
  refine changePortLoop_refines h (fun temp _ => ?_) hn behind
  rw [List.length_append]
  omega

/-! ## The texts -/

section Texts

variable {pre gap : List UInt8} {servers : List (Address × List UInt8)}
  {strFrom strTo : List UInt8}

/-- The text with the ports changed as they should be. -/
def changed (strFrom strTo : List UInt8) (servers : List (Address × List UInt8)) :
    List (Address × List UInt8) :=
  servers.map fun s => (s.1.withPort strFrom strTo, s.2)

theorem WellFormed.next {a : Address} {next : List UInt8}
    (h : WellFormed gap ((a, next) :: servers)) : WellFormed next servers :=
  ⟨h.gaps (a, next) List.mem_cons_self, fun s hs => h.gaps s (List.mem_cons_of_mem _ hs),
    fun s hs => h.addresses s (List.mem_cons_of_mem _ hs)⟩

theorem WellFormed.behind {g : List UInt8} (h : WellFormed gap servers) (hg : g <:+: gap) :
    WellFormed g servers :=
  ⟨fun hin => h.gap (hin.trans hg), h.gaps, h.addresses⟩

/-- A text goes on with nothing or an address behind the gap. -/
theorem configText_eq (gap : List UInt8) (servers : List (Address × List UInt8)) :
    ∃ rest, configText gap servers = gap ++ rest ∧ (rest = [] ∨ ∃ s, rest = 116 :: s) := by
  cases servers with
  | nil => exact ⟨[], by simp [configText], .inl rfl⟩
  | cons s servers =>
      obtain ⟨a, next⟩ := s
      exact ⟨a.text ++ newline :: configText next servers, by simp [configText],
        .inr ⟨_, rfl⟩⟩

theorem configText_append (g gap : List UInt8) (servers : List (Address × List UInt8)) :
    configText (g ++ gap) servers = g ++ configText gap servers := by
  cases servers <;> simp [configText]

theorem prefix_of_append_cons {u p s : List UInt8} {c : UInt8} (hu : c ∉ u)
    (h : u <+: p ++ c :: s) : u <+: p := by
  rcases List.prefix_or_prefix_of_prefix h (List.prefix_append p (c :: s)) with hin | ⟨t, rfl⟩
  · exact hin
  · have ht : t <+: c :: s := (List.prefix_append_right_inj p).mp h
    rcases t with _ | ⟨b, t⟩
    · simp
    · obtain ⟨rfl, -⟩ := List.cons_prefix_cons.mp ht
      exact absurd (List.mem_append_right p List.mem_cons_self) hu

/-- What is free of `t` and starts a text starts its gap. -/
theorem prefix_configText {u : List UInt8} (hu : 116 ∉ u) :
    u <+: configText gap servers ↔ u <+: gap := by
  obtain ⟨rest, hrest, hstart⟩ := configText_eq gap servers
  rw [hrest]
  refine ⟨fun hpre => ?_, fun h => h.trans (List.prefix_append gap rest)⟩
  rcases hstart with rfl | ⟨s, rfl⟩
  · rwa [List.append_nil] at hpre
  · exact prefix_of_append_cons hu hpre

theorem overwrite_eq {s : List UInt8} (h : hardCodedPort <+: s) :
    4 ≤ s.length ∧ hardCodedPort ++ s.drop 4 = s := by
  obtain ⟨t, rfl⟩ := h
  exact ⟨by simp [hardCodedPort], rfl⟩

/-- Overwriting with the hard-coded port is right when the text should have it
there, and the loop goes on in the text as it should be. -/
theorem yields_overwrite {s s' out : List UInt8} (hout : hardCodedPort <+: out →
      4 ≤ s.length ∧ hardCodedPort ++ s.drop 4 = s') :
    (4 ≤ s.length ∧ Yields pre (hardCodedPort ++ s.drop 4) out)
      ↔ hardCodedPort <+: out ∧ Yields pre s' out := by
  constructor
  · rintro ⟨-, hy⟩
    have hpre := hy.keeps (firstAt_skip (by decide))
    exact ⟨hpre, (hout hpre).2 ▸ hy⟩
  · rintro ⟨hpre, hy⟩
    exact ⟨(hout hpre).1, (hout hpre).2.symm ▸ hy⟩

theorem yields_port {h : UInt8} {mid p p' rest rest' : List UInt8} (hmid : colon ∉ mid)
    (hp : 116 ∉ p') (hsame : hardCodedPort <+: p' → p = p' ∨ p.length = 4 ∧ p' = hardCodedPort) :
    Yields pre (tcpPrefix ++ h :: (mid ++ colon :: (p ++ newline :: rest)))
        (tcpPrefix ++ h :: (mid ++ colon :: (p' ++ newline :: rest')))
      ↔ hardCodedPort <+: p'
        ∧ Yields (pre ++ (tcpPrefix ++ h :: (mid ++ colon :: (p' ++ [newline])))) rest rest' := by
  have hin : newline ∈ p ++ newline :: rest := by simp
  have hpre : hardCodedPort <+: p' ++ newline :: rest' ↔ hardCodedPort <+: p' :=
    ⟨prefix_of_append_cons (by decide), fun h => h.trans (List.prefix_append _ _)⟩
  have hright : hardCodedPort <+: p' → 4 ≤ (p ++ newline :: rest).length
      ∧ hardCodedPort ++ (p ++ newline :: rest).drop 4 = p' ++ newline :: rest := by
    intro hpre'
    rcases hsame hpre' with rfl | ⟨hlen, rfl⟩
    · exact overwrite_eq (hpre'.trans (List.prefix_append _ _))
    · rw [← hlen, List.drop_left, List.length_append]
      exact ⟨by omega, rfl⟩
  rw [yields_address hmid, if_pos hin, yields_overwrite fun h => hright (hpre.mp h), hpre]
  have hskip : firstAt tcpPrefix ((p' ++ [newline]) ++ rest)
      = (firstAt tcpPrefix rest).map ((p' ++ [newline]).length + ·) :=
    firstAt_skip (by simpa using ⟨hp, by decide⟩)
  have hgo := @yields_skip (pre ++ (tcpPrefix ++ h :: (mid ++ [colon]))) _ _ rest' hskip
  refine and_congr_right fun _ => ?_
  simpa using hgo

theorem behindColon_spec : ∀ {s : List UInt8}, colon ∈ s →
    ∃ g, colon ∉ g ∧ s = g ++ colon :: behindColon s
  | b :: s, h => by
      by_cases hb : b = colon
      · subst hb
        exact ⟨[], List.not_mem_nil, by simp [behindColon]⟩
      · obtain ⟨g, hg, hs⟩ := behindColon_spec ((List.mem_cons.mp h).resolve_left (Ne.symm hb))
        refine ⟨b :: g, by simp [hg, Ne.symm hb], ?_⟩
        have hskip : behindColon (b :: s) = behindColon s := by simp [behindColon, hb]
        rw [hskip, List.cons_append, ← hs]

/-- An address without a port and a colon in the gap behind it: what follows
that colon is overwritten if a line end comes. -/
theorem yields_colon {h : UInt8} {mid g rest rest' : List UInt8} (hmid : colon ∉ mid)
    (hg : colon ∉ g) (hsame : hardCodedPort <+: rest' → hardCodedPort <+: rest) :
    Yields pre (tcpPrefix ++ h :: (mid ++ newline :: (g ++ colon :: rest)))
        (tcpPrefix ++ h :: (mid ++ newline :: (g ++ colon :: rest')))
      ↔ (newline ∈ rest → hardCodedPort <+: rest')
        ∧ Yields (pre ++ (tcpPrefix ++ h :: (mid ++ newline :: (g ++ [colon])))) rest rest' := by
  have hmid' : colon ∉ mid ++ newline :: g := by
    simp only [List.mem_append, List.mem_cons, not_or]
    exact ⟨hmid, by decide, hg⟩
  have haddress := @yields_address pre (mid ++ newline :: g) rest rest' h hmid'
  simp only [List.append_assoc, List.cons_append] at haddress
  rw [haddress]
  split
  · next hin =>
      rw [yields_overwrite fun hpre => overwrite_eq (hsame hpre)]
      simp [hin]
  · next hin => simp [hin]

/-- Without a port and a colon before the next address, the colon found is the
one of that address's `tcp:`. -/
theorem not_yields_next {h : UInt8} {mid g s s' : List UInt8} (hmid : colon ∉ mid)
    (hg : colon ∉ g) (hs : newline ∈ s) :
    ¬ Yields pre (tcpPrefix ++ h :: (mid ++ newline :: (g ++ (tcpPrefix ++ s))))
      (tcpPrefix ++ h :: (mid ++ newline :: (g ++ (tcpPrefix ++ s')))) := by
  have hg' : colon ∉ g ++ [116, 99, 112] := by
    rw [List.mem_append, not_or]
    exact ⟨hg, by decide⟩
  have hslash : ∀ t : List UInt8, ¬ hardCodedPort <+: 47 :: t := fun t hpre =>
    absurd (List.cons_prefix_cons.mp hpre).1 (by decide)
  have hsplit : ∀ t : List UInt8,
      g ++ (tcpPrefix ++ t) = (g ++ [116, 99, 112]) ++ colon :: 47 :: 47 :: t := by
    intro t
    simp [tcpPrefix, colon]
  rw [hsplit, hsplit, yields_colon hmid hg' fun hpre => absurd hpre (hslash _)]
  exact fun hy => hslash _ (hy.1 (by simp [hs]))

/-- What the loop does from a place before the first address on. -/
theorem yields_config (hfrom : FourDigits strFrom) (hto : FourDigits strTo) :
    ∀ {servers : List (Address × List UInt8)} {pre gap : List UInt8}, WellFormed gap servers →
      (Yields pre (configText gap servers) (configText gap (changed strFrom strTo servers))
        ↔ PortsHardCoded strFrom strTo servers)
  | [], pre, gap, h => by
      simp [changed, PortsHardCoded, configText, yields_none h.gap]
  | (a, next) :: servers, pre, gap, h => by
      obtain ⟨host, port⟩ := a
      have haddress := h.addresses _ List.mem_cons_self
      obtain ⟨c, mid, rfl⟩ := List.exists_cons_of_ne_nil haddress.host_ne
      have hmid : colon ∉ mid := fun hin => haddress.colon (List.mem_cons_of_mem c hin)
      have hgap : ∀ s : List UInt8, firstAt tcpPrefix (gap ++ (tcpPrefix ++ s))
          = (firstAt tcpPrefix (tcpPrefix ++ s)).map (gap.length + ·) := fun s =>
        @firstAt_append _ _ 116 [99, 112, 58, 47, 47] _ (by decide) (.inr ⟨_, rfl⟩) gap h.gap
      rcases port with _ | p
      · have hshape : ∀ l : List (Address × List UInt8),
            configText gap ((⟨c :: mid, none⟩, next) :: l)
              = gap ++ (tcpPrefix ++ c :: (mid ++ newline :: configText next l)) := by
          intro l
          simp [configText, Address.text]
        have hchanged : changed strFrom strTo ((⟨c :: mid, none⟩, next) :: servers)
            = (⟨c :: mid, none⟩, next) :: changed strFrom strTo servers := rfl
        rw [hchanged, hshape, hshape, yields_skip (hgap _), PortsHardCoded]
        by_cases hcolon : colon ∈ next
        · obtain ⟨g, hg, hsplit⟩ := behindColon_spec hcolon
          have hnext : ∀ l, configText next l = g ++ colon :: configText (behindColon next) l := by
            intro l
            conv_lhs => rw [hsplit, ← List.singleton_append, ← List.append_assoc,
              configText_append]
            simp
          have hpre : ∀ l, hardCodedPort <+: configText (behindColon next) l
              ↔ hardCodedPort <+: behindColon next := fun l => prefix_configText (by decide)
          have hbehind : behindColon next <:+: next := by
            refine List.IsSuffix.isInfix ⟨g ++ [colon], ?_⟩
            rw [List.append_assoc, List.singleton_append, ← hsplit]
          rw [hnext, hnext, yields_colon hmid hg fun hin => (hpre _).mpr ((hpre _).mp hin), hpre,
            yields_config hfrom hto (h.next.behind hbehind)]
          simp [hcolon]
        · refine iff_of_false ?_ fun hright => hcolon hright.1.1
          rcases servers with _ | ⟨⟨b, next'⟩, servers⟩
          · refine not_yields_address ?_
            simp only [configText, List.mem_append, List.mem_cons, not_or]
            exact ⟨hmid, by decide, hcolon⟩
          · have hnext : ∀ (b : Address) (l : List (Address × List UInt8)),
                configText next ((b, next') :: l) = next ++ (tcpPrefix ++ (b.host
                  ++ (b.port.map (colon :: ·)).getD [] ++ newline :: configText next' l)) := by
              intro b l
              simp [configText, Address.text]
            rw [changed, List.map_cons, hnext, hnext]
            exact not_yields_next hmid hcolon (by simp)
      · set p' := if p = strFrom then strTo else p with hp'
        have hdigits : ∀ c ∈ p', isDigit c = true := by
          intro c hc
          rw [hp'] at hc
          split at hc
          · exact hto.digits c hc
          · exact (haddress.port p rfl).2 c hc
        have hpre : hardCodedPort <+: p'
            ↔ if p = strFrom then strTo = hardCodedPort else hardCodedPort <+: p := by
          rw [hp']
          split
          · refine ⟨fun hpre => (hpre.eq_of_length ?_).symm, fun heq => heq ▸ List.prefix_refl _⟩
            exact hto.length.symm
          · rfl
        have hport : hardCodedPort <+: p' → p = p' ∨ p.length = 4 ∧ p' = hardCodedPort := by
          rw [hpre, hp']
          split
          · next heq => exact fun hto' => .inr ⟨heq ▸ hfrom.length, hto'⟩
          · exact fun _ => .inl rfl
        have hshape : ∀ (q : List UInt8) (l : List (Address × List UInt8)),
            configText gap ((⟨c :: mid, some q⟩, next) :: l)
              = gap ++ (tcpPrefix
                ++ c :: (mid ++ colon :: (q ++ newline :: configText next l))) := by
          intro q l
          simp [configText, Address.text]
        have hchanged : changed strFrom strTo ((⟨c :: mid, some p⟩, next) :: servers)
            = (⟨c :: mid, some p'⟩, next) :: changed strFrom strTo servers := rfl
        rw [hchanged, hshape, hshape, yields_skip (hgap _), yields_port hmid ?_ hport,
          yields_config hfrom hto h.next, PortsHardCoded, hpre]
        · exact fun hin => absurd (hdigits _ hin) (by decide)

theorem configText_length (hfrom : FourDigits strFrom) (hto : FourDigits strTo) :
    ∀ (gap : List UInt8) (servers : List (Address × List UInt8)),
      (configText gap (changed strFrom strTo servers)).length = (configText gap servers).length
  | _, [] => rfl
  | gap, (a, next) :: servers => by
      have hport : (((a.withPort strFrom strTo).port.map (colon :: ·)).getD []).length
          = ((a.port.map (colon :: ·)).getD []).length := by
        obtain ⟨host, port⟩ := a
        rcases port with _ | p
        · rfl
        · by_cases hp : p = strFrom
          · simp [Address.withPort, hp, hfrom.length, hto.length]
          · simp [Address.withPort, hp]
      have ih := configText_length hfrom hto next servers
      simp only [changed, List.map_cons, configText, Address.text, List.length_append,
        List.length_cons] at ih hport ⊢
      simp only [Address.withPort] at ih hport ⊢
      omega

/-- **`change_port` rewrites the ports of a configuration exactly when writing
`3335` behind every colon it finds is right.** -/
theorem change_port_rewrites (h : WellFormed gap servers) (hfrom : FourDigits strFrom)
    (hto : FourDigits strTo) (gotSize : Int) :
    (∃ turns, changePort turns (configText gap servers) gotSize strFrom strTo
        = .ok (configText gap (changed strFrom strTo servers))
      ∧ (configText gap (changed strFrom strTo servers)).length
        = (configText gap servers).length)
      ↔ PortsHardCoded strFrom strTo servers := by
  have hiff := @changePort_iff (configText gap servers)
    (configText gap (changed strFrom strTo servers)) gotSize strFrom strTo
  rw [← yields_config hfrom hto h, ← hiff]
  simp [configText_length hfrom hto]

end Texts

def port3334 : List UInt8 := [51, 51, 51, 52]

/-- One server on the port, `tcp://a:port`. -/
def oneServer (port : List UInt8) : List (Address × List UInt8) := [(⟨[97], some port⟩, [])]

theorem oneServer_wellFormed {port : List UInt8} (h : FourDigits port) :
    WellFormed [] (oneServer port) := by
  have hnil : ¬ tcpPrefix <:+: [] := by decide
  refine ⟨hnil, ?_, ?_⟩
  · intro s hs
    obtain rfl := List.mem_singleton.mp hs
    exact hnil
  · intro s hs
    obtain rfl := List.mem_singleton.mp hs
    have hcolon : colon ∉ [97] := by decide
    have hnewline : newline ∉ [97] := by decide
    refine ⟨List.cons_ne_nil _ _, hcolon, hnewline, ?_⟩
    rintro p ⟨⟩
    refine ⟨?_, h.digits⟩
    rintro rfl
    exact absurd h.length (by decide)

theorem fourDigits_3334 : FourDigits port3334 :=
  ⟨rfl, List.all_eq_true.mp (by decide)⟩

theorem fourDigits_3335 : FourDigits hardCodedPort :=
  ⟨rfl, List.all_eq_true.mp (by decide)⟩

/-- The port the caller asks for is rewritten. -/
theorem change_port_rewrites_example :
    ∃ turns, changePort turns (configText [] (oneServer port3334)) 13 port3334 hardCodedPort
        = .ok (configText [] (oneServer hardCodedPort)) := by
  obtain ⟨turns, hrun, -⟩ := (change_port_rewrites (oneServer_wellFormed fourDigits_3334)
    fourDigits_3334 fourDigits_3335 13).mpr (by simp [PortsHardCoded, oneServer])
  exact ⟨turns, hrun⟩

/-- Another port, `3336`, is rewritten as well. -/
theorem change_port_other :
    FourDigits [51, 51, 51, 54] ∧ WellFormed [] (oneServer [51, 51, 51, 54])
      ∧ changePort 2 (configText [] (oneServer [51, 51, 51, 54])) 13 port3334 hardCodedPort
        = .ok (configText [] (oneServer hardCodedPort))
      ∧ ∀ turns, changePort turns (configText [] (oneServer [51, 51, 51, 54])) 13 port3334
          hardCodedPort
        ≠ .ok (configText [] (changed port3334 hardCodedPort (oneServer [51, 51, 51, 54]))) := by
  have hport : FourDigits [51, 51, 51, 54] :=
    ⟨rfl, List.all_eq_true.mp (by decide)⟩
  refine ⟨hport, oneServer_wellFormed hport, by decide, fun turns hrun => ?_⟩
  have hright := (yields_config fourDigits_3334 fourDigits_3335 (oneServer_wellFormed hport)).mp
    (changePort_iff.mp ⟨turns, hrun⟩)
  exact absurd hright.1 (by decide)

end PvfsProxy.ConfigText
