import DartSdk.Core.Ipv6
import Mathlib.Tactic.Ring

/-!
# Core/Ipv6Parts — the grammar of an address, and the loop at one part

`Address` is the grammar of RFC 3986 with the bytes that an address denotes.  The loop of
`parseIPv6Address` meets the rest of the string at the start of a part in one of six ways (`Meets`):
**a part is stored if the buffer has room for it, and nothing is checked when a wildcard is
counted.**
-/

namespace Ipv6

open List

variable {c : ℕ}

/-! ## The grammar

Groups of up to four hexadecimal digits, one wildcard, and a dotted tail. -/

/-- `HEXDIG`, in either case, and its value. -/
def hexVal (c : ℕ) : Option ℕ :=
  if 0x30 ≤ c ∧ c ≤ 0x39 then some (c - 0x30)
  else if 0x41 ≤ c ∧ c ≤ 0x46 then some (c - 0x41 + 10)
  else if 0x61 ≤ c ∧ c ≤ 0x66 then some (c - 0x61 + 10)
  else none

/-- `DIGIT`. -/
def IsDigit (c : ℕ) : Prop := 0x30 ≤ c ∧ c ≤ 0x39

instance (c : ℕ) : Decidable (IsDigit c) := inferInstanceAs (Decidable (_ ∧ _))

/-- The value of hexadecimal digits. -/
def hexValue (acc : ℕ) (h : List ℕ) : ℕ := h.foldl (fun a c => a * 16 + (hexVal c).getD 0) acc

/-- The value of decimal digits. -/
def decValue (acc : ℕ) (o : List ℕ) : ℕ := o.foldl (fun a c => a * 10 + (c - 0x30)) acc

/-- `h16`: one to four hexadecimal digits, and their value. -/
structure H16 (h : List ℕ) (v : ℕ) : Prop where
  hex : ∀ c ∈ h, hexVal c ≠ none
  pos : h ≠ []
  length_le : h.length ≤ 4
  value : hexValue 0 h = v

/-- `dec-octet`: a decimal numeral up to `255` without leading zeros. -/
structure DecOctet (o : List ℕ) (v : ℕ) : Prop where
  digit : ∀ c ∈ o, IsDigit c
  pos : o ≠ []
  no_leading_zero : o.length = 1 ∨ o.head? ≠ some 0x30
  value : decValue 0 o = v
  le : v ≤ 255

/-- Octets with a dot between any two. -/
inductive Octets : List ℕ → List ℕ → Prop
  | last {o : List ℕ} {v : ℕ} (h : DecOctet o v) : Octets o [v]
  | cons {o t vs : List ℕ} {v : ℕ} (h : DecOctet o v) (ht : Octets t vs) :
    Octets (o ++ kDot :: t) (v :: vs)

/-- `IPv4address`, and its four bytes. -/
def IPv4 (t bytes : List ℕ) : Prop := Octets t bytes ∧ bytes.length = 4

/-- The two bytes of a part. -/
def bytesOf (v : ℕ) : List ℕ := [v / 256, v % 256]

/-- `n` times `h16 ":"`, and the bytes. -/
inductive Groups : ℕ → List ℕ → List ℕ → Prop
  | zero : Groups 0 [] []
  | succ {n v : ℕ} {h t bytes : List ℕ} (hh : H16 h v) (ht : Groups n t bytes) :
    Groups (n + 1) (h ++ kColon :: t) (bytesOf v ++ bytes)

/-- `ls32`: two parts or an IPv4 address. -/
inductive Ls32 : List ℕ → List ℕ → Prop
  | parts {h h' : List ℕ} {v v' : ℕ} (hh : H16 h v) (hh' : H16 h' v') :
    Ls32 (h ++ kColon :: h') (bytesOf v ++ bytesOf v')
  | ipv4 {t bytes : List ℕ} (h : IPv4 t bytes) : Ls32 t bytes

/-- `[ *n( h16 ":" ) h16 ]`: nothing, or a part after at most `n` others. -/
inductive Left : ℕ → List ℕ → List ℕ → Prop
  | none {n : ℕ} : Left n [] []
  | parts {n k v : ℕ} {t h bytes : List ℕ} (hk : k ≤ n) (ht : Groups k t bytes) (hh : H16 h v) :
    Left n (t ++ h) (bytes ++ bytesOf v)

/-- The bytes of a wildcard between others. -/
def gap (left right : List ℕ) : List ℕ :=
  left ++ replicate (16 - left.length - right.length) 0 ++ right

/-- **`IPv6address`**, in its nine alternatives, and the 16 bytes that it denotes. -/
inductive Address : List ℕ → List ℕ → Prop
  | full {t l bytes bytes' : List ℕ} (ht : Groups 6 t bytes) (hl : Ls32 l bytes') :
    Address (t ++ l) (bytes ++ bytes')
  | wild5 {t l bytes bytes' : List ℕ} (ht : Groups 5 t bytes) (hl : Ls32 l bytes') :
    Address (kColon :: kColon :: (t ++ l)) (gap [] (bytes ++ bytes'))
  | wild {n : ℕ} {p t l left bytes bytes' : List ℕ} (hn : n ≤ 4) (hp : Left (4 - n) p left)
      (ht : Groups n t bytes) (hl : Ls32 l bytes') :
    Address (p ++ kColon :: kColon :: (t ++ l)) (gap left (bytes ++ bytes'))
  | wildPart {p h left : List ℕ} {v : ℕ} (hp : Left 5 p left) (hh : H16 h v) :
    Address (p ++ kColon :: kColon :: h) (gap left (bytesOf v))
  | wildEnd {p left : List ℕ} (hp : Left 6 p left) :
    Address (p ++ [kColon, kColon]) (gap left [])

theorem xor_le_nine_iff : c ^^^ kDigit0 ≤ 9 ↔ IsDigit c := by
  have hsmall : ∀ c < 64, (c ^^^ 0x30 ≤ 9 ↔ 0x30 ≤ c ∧ c ≤ 0x39) := by decide
  rcases Nat.lt_or_ge c 64 with hlt | hge
  · exact hsmall c hlt
  refine iff_of_false (fun hle => ?_) (fun h => ?_)
  · have hlt : (c ^^^ 0x30) ^^^ 0x30 < 2 ^ 6 :=
      Nat.xor_lt_two_pow (Nat.lt_of_le_of_lt hle (by decide)) (by decide)
    rw [Nat.xor_assoc, Nat.xor_self, Nat.xor_zero] at hlt
    omega
  · have := h.2
    omega

theorem xor_digit (h : IsDigit c) : c ^^^ kDigit0 = c - 0x30 := by
  have hsmall : ∀ c < 64, 0x30 ≤ c → c ≤ 0x39 → c ^^^ 0x30 = c - 0x30 := by decide
  exact hsmall c (by have := h.2; omega) h.1 h.2

/-- The digits of the code are those of the grammar. -/
theorem hexDigit_eq (c : ℕ) : hexDigit c = (hexVal c).map fun d => (d, decide (IsDigit c)) := by
  have hsmall : ∀ c < 128, hexDigit c = (hexVal c).map fun d => (d, decide (IsDigit c)) := by
    decide
  rcases Nat.lt_or_ge c 128 with hlt | hge
  · exact hsmall c hlt
  have hdigit : ¬ IsDigit c := fun h => by
    have := h.2
    omega
  have hletter : c ≤ c ||| 0x20 := Nat.left_le_or
  have hval : hexVal c = none := by
    rw [hexVal, if_neg (by omega), if_neg (by omega), if_neg (by omega)]
  rw [hval, hexDigit, if_neg (fun h => hdigit (xor_le_nine_iff.1 h)), if_neg]
  · rfl
  · rintro ⟨-, hle⟩
    have : kLowerCaseF = 0x66 := rfl
    omega

theorem hexVal_lt {d : ℕ} (h : hexVal c = some d) : d < 16 := by
  rw [hexVal] at h
  split_ifs at h with h1 h2 h3
  all_goals
    have := Option.some.inj h
    omega

theorem hexVal_ne_none_of_isDigit (h : IsDigit c) : hexVal c ≠ none := by
  have h' : 0x30 ≤ c ∧ c ≤ 0x39 := h
  rw [hexVal, if_pos h']
  simp

@[simp] theorem hexVal_colon : hexVal kColon = none := rfl

theorem hexVal_dot : hexVal kDot = none := rfl

theorem not_isDigit_dot : ¬ IsDigit kDot := by decide

/-- The first character that is not of a kind is in one place. -/
theorem split_unique {α : Type} {P : α → Prop} {h h' t t' : List α} {c c' : α} (hh : ∀ x ∈ h, P x)
    (hh' : ∀ x ∈ h', P x) (hc : ¬ P c) (hc' : ¬ P c') (heq : h ++ c :: t = h' ++ c' :: t') :
    h = h' ∧ c = c' ∧ t = t' := by
  induction h generalizing h' with
  | nil =>
    cases h' with
    | nil =>
      obtain ⟨rfl, rfl⟩ := cons.inj heq
      exact ⟨rfl, rfl, rfl⟩
    | cons x h' =>
      obtain ⟨rfl, -⟩ := cons.inj heq
      exact absurd (hh' c (by simp)) hc
  | cons x h ih =>
    cases h' with
    | nil =>
      obtain ⟨rfl, -⟩ := cons.inj heq
      exact absurd (hh x (by simp)) hc'
    | cons x' h' =>
      obtain ⟨rfl, htail⟩ := cons.inj heq
      obtain ⟨rfl, rfl, rfl⟩ := ih (fun y hy => hh y (mem_cons_of_mem _ hy))
        (fun y hy => hh' y (mem_cons_of_mem _ hy)) htail
      exact ⟨rfl, rfl, rfl⟩

/-- A text is a run of a kind of characters, and then it ends or another character follows. -/
theorem exists_split {α : Type} (P : α → Prop) [DecidablePred P] (rest : List α) :
    ∃ h t, rest = h ++ t ∧ (∀ x ∈ h, P x) ∧ ∀ c t', t = c :: t' → ¬ P c := by
  induction rest with
  | nil => exact ⟨[], [], rfl, by simp, by simp⟩
  | cons x rest ih =>
    by_cases hx : P x
    · obtain ⟨h, t, rfl, hh, ht⟩ := ih
      exact ⟨x :: h, t, rfl, forall_mem_cons.2 ⟨hx, hh⟩, ht⟩
    · exact ⟨[], x :: rest, rfl, by simp, fun c t' heq => (cons.inj heq).1 ▸ hx⟩

/-- Throwing a `FormatException`. -/
def Fails {α : Type} (result : Except Exn α) : Prop := ∃ msg pos, result = .error (.format msg pos)

/-- The buffer with its first bytes written. -/
def buffer (bytes : List ℕ) : List ℕ := bytes ++ replicate (16 - bytes.length) 0

theorem store_buffer {bytes : List ℕ} {v : ℕ} (hlt : bytes.length < 16) (hv : v < 256) :
    store (buffer bytes) bytes.length v = .ok (buffer (bytes ++ [v])) := by
  obtain ⟨n, hn⟩ : ∃ n, 16 - bytes.length = n + 1 := ⟨15 - bytes.length, by omega⟩
  have hn' : 16 - (bytes ++ [v]).length = n := by
    rw [length_append, length_singleton]
    omega
  rw [store, if_pos (by simp [buffer]; omega), buffer, buffer, hn, hn', Nat.mod_eq_of_lt hv,
    set_append_right _ _ le_rfl, Nat.sub_self, replicate_succ, set_cons_zero,
    append_assoc]
  rfl

/-! ## The dotted tail

Four decimal octets without leading zeros. -/

section

variable {size off start idx v : ℕ} {d t target : List ℕ} {vs : List ℕ}

theorem le_decValue (v : ℕ) (d : List ℕ) : v ≤ decValue v d := by
  induction d generalizing v with
  | nil => exact le_rfl
  | cons c d ih =>
    calc v ≤ v * 10 + (c - 0x30) := by omega
      _ ≤ decValue (v * 10 + (c - 0x30)) d := ih _

theorem fails_ipv4FormatError (msg : String) (pos : ℕ) : Fails (ipv4FormatError msg pos) :=
  ⟨_, _, rfl⟩

/-- One digit after the first of an octet. -/
theorem ipv4Loop_digit {c : ℕ} {rest : List ℕ} (hc : IsDigit c)
    (hstart : start + (c :: rest).length < size) :
    ipv4Loop size off (c :: rest) start idx v target =
      if v ≠ 0 then
        if v * 10 + (c - 0x30) ≤ 255 then
          ipv4Loop size off rest start idx (v * 10 + (c - 0x30)) target
        else ipv4FormatError "each part must be in the range 0..255" start
      else ipv4FormatError "parts must not have leading zeros" start := by
  have hcursor : ¬ position size (c :: rest) = start := by
    rw [position]
    omega
  rw [ipv4Loop, if_pos (xor_le_nine_iff.2 hc), xor_digit hc]
  simp [hcursor, or_false]

/-- The digits after the first of an octet. -/
theorem ipv4Loop_digits (hd : ∀ c ∈ d, IsDigit c) (hstart : start + (d ++ t).length < size) :
    ((d = [] ∨ v ≠ 0) ∧ (d = [] ∨ decValue v d ≤ 255) ∧
        ipv4Loop size off (d ++ t) start idx v target =
          ipv4Loop size off t start idx (decValue v d) target) ∨
      ¬ ((d = [] ∨ v ≠ 0) ∧ (d = [] ∨ decValue v d ≤ 255)) ∧
        Fails (ipv4Loop size off (d ++ t) start idx v target) := by
  induction d generalizing v with
  | nil => exact .inl ⟨.inl rfl, .inl rfl, rfl⟩
  | cons c d ih =>
    obtain ⟨hc, hd⟩ := forall_mem_cons.1 hd
    rw [cons_append] at hstart ⊢
    have hvalue : decValue v (c :: d) = decValue (v * 10 + (c - 0x30)) d := rfl
    have hle := le_decValue (v * 10 + (c - 0x30)) d
    rw [ipv4Loop_digit hc hstart, hvalue]
    by_cases hv : v = 0
    · refine .inr ⟨fun h => ?_, ?_⟩
      · simp [hv] at h
      · rw [if_neg (by simpa using hv)]
        exact fails_ipv4FormatError _ _
    rw [if_pos hv]
    by_cases hbound : v * 10 + (c - 0x30) ≤ 255
    · rw [if_pos hbound]
      have hstart' : start + (d ++ t).length < size := by
        rw [length_cons] at hstart
        omega
      obtain ⟨-, hd', hloop⟩ | ⟨hno, hfails⟩ := ih (v := v * 10 + (c - 0x30)) hd hstart'
      · refine .inl ⟨.inr hv, .inr ?_, hloop⟩
        rcases hd' with rfl | hd'
        · exact hbound
        · exact hd'
      · refine .inr ⟨fun h => hno ⟨.inr (by omega), ?_⟩, hfails⟩
        rcases h.2 with h | h
        · exact absurd h (by simp)
        · exact .inr h
    · refine .inr ⟨fun h => ?_, ?_⟩
      · rcases h.2 with h | h
        · exact absurd h (by simp)
        · omega
      · rw [if_neg hbound]
        exact fails_ipv4FormatError _ _

/-- **An octet is read exactly when it is one.** -/
theorem ipv4Loop_octet (hd : ∀ c ∈ d, IsDigit c) (ht : ∀ c t', t = c :: t' → ¬ IsDigit c)
    (hstart : start + (d ++ t).length = size) :
    (∃ v, DecOctet d v ∧ ipv4Loop size off (d ++ t) start idx 0 target =
      ipv4Loop size off t start idx v target) ∨
    (¬ ∃ v, DecOctet d v) ∧ Fails (ipv4Loop size off (d ++ t) start idx 0 target) := by
  cases d with
  | nil =>
    refine .inr ⟨fun ⟨v, hv⟩ => hv.pos rfl, ?_⟩
    rw [nil_append] at hstart ⊢
    cases t with
    | nil =>
      obtain rfl : size = start := by simpa using hstart.symm
      rw [ipv4Loop, if_pos rfl]
      exact fails_ipv4FormatError _ _
    | cons c t =>
      have hcursor : position size (c :: t) = start := by
        rw [position]
        omega
      rw [ipv4Loop, if_neg fun h => ht c t rfl (xor_le_nine_iff.1 h), if_pos hcursor]
      exact fails_ipv4FormatError _ _
  | cons c d =>
    obtain ⟨hc, hd⟩ := forall_mem_cons.1 hd
    have hc' := hc.2
    have hcursor : position size (c :: (d ++ t)) = start := by
      rw [position]
      rw [cons_append] at hstart
      omega
    have hfirst : ipv4Loop size off (c :: d ++ t) start idx 0 target =
        ipv4Loop size off (d ++ t) start idx (c - 0x30) target := by
      rw [cons_append, ipv4Loop, if_pos (xor_le_nine_iff.2 hc), xor_digit hc,
        if_pos (.inr hcursor), Nat.zero_mul, Nat.zero_add, if_pos (by omega)]
    have hstart' : start + (d ++ t).length < size := by
      rw [cons_append, length_cons] at hstart
      omega
    have hzero : c - 0x30 ≠ 0 ↔ c ≠ 0x30 := by
      have := hc.1
      omega
    have hvalue : decValue 0 (c :: d) = decValue (c - 0x30) d := by
      simp [decValue]
    rw [hfirst]
    obtain ⟨hlead, hle, hloop⟩ | ⟨hno, hfails⟩ :
        (_ ∧ _ ∧ ipv4Loop size off (d ++ t) start idx (c - 0x30) target = _) ∨ _ :=
      ipv4Loop_digits hd hstart'
    · refine .inl ⟨decValue (c - 0x30) d, ⟨forall_mem_cons.2 ⟨hc, hd⟩, by simp, ?_, hvalue, ?_⟩,
        hloop⟩
      · rcases hlead with rfl | hne
        · exact .inl rfl
        · exact .inr (by simpa using hzero.1 hne)
      · rcases hle with rfl | hle
        · change c - 0x30 ≤ 255
          omega
        · exact hle
    · refine .inr ⟨?_, hfails⟩
      rintro ⟨v, hv⟩
      refine hno ⟨?_, .inr ?_⟩
      · rcases hv.no_leading_zero with hone | hne
        · exact .inl (length_eq_zero_iff.1 (by simpa using hone))
        · exact .inr (hzero.2 (by simpa using hne))
      · rw [← hvalue, hv.value]
        exact hv.le

theorem Octets.split (h : Octets t vs) : ∃ o v, DecOctet o v ∧
    ((t = o ∧ vs = [v]) ∨ ∃ t' vs', t = o ++ kDot :: t' ∧ vs = v :: vs' ∧ Octets t' vs') := by
  cases h with
  | last h => exact ⟨_, _, h, .inl ⟨rfl, rfl⟩⟩
  | cons h ht => exact ⟨_, _, h, .inr ⟨_, _, rfl, rfl, ht⟩⟩

/-- The octets of a text that ends with its digits. -/
theorem octets_digits_iff (hd : ∀ c ∈ d, IsDigit c) :
    Octets d vs ↔ ∃ v, DecOctet d v ∧ vs = [v] := by
  constructor
  · intro h
    obtain ⟨o, v, ho, ⟨rfl, rfl⟩ | ⟨t', vs', rfl, -⟩⟩ := h.split
    · exact ⟨v, ho, rfl⟩
    · exact absurd (hd kDot (by simp)) not_isDigit_dot
  · rintro ⟨v, hv, rfl⟩
    exact .last hv

/-- The octets of a text that goes on after its digits. -/
theorem octets_split_iff {c : ℕ} (hd : ∀ c ∈ d, IsDigit c) (hc : ¬ IsDigit c) :
    Octets (d ++ c :: t) vs ↔ c = kDot ∧ ∃ v vs', DecOctet d v ∧ Octets t vs' ∧ vs = v :: vs' := by
  constructor
  · intro h
    obtain ⟨o, v, ho, ⟨heq, -⟩ | ⟨t', vs', heq, rfl, ht⟩⟩ := h.split
    · exact absurd (ho.digit c (by simp [← heq])) hc
    · obtain ⟨rfl, rfl, rfl⟩ := split_unique hd ho.digit hc not_isDigit_dot heq
      exact ⟨rfl, v, vs', ho, ht, rfl⟩
  · rintro ⟨rfl, v, vs', hv, ht, rfl⟩
    exact .cons hv ht

/-- **The dotted tail is read exactly when it is octets, as many as are missing.** -/
theorem ipv4Loop_spec {rest bytes : List ℕ} (hstart : start + rest.length = size) (hidx : idx < 4)
    (hoff : off + idx = bytes.length) (hfits : bytes.length + (4 - idx) ≤ 16) :
    (∃ vs, Octets rest vs ∧ idx + vs.length = 4 ∧
      ipv4Loop size off rest start idx 0 (buffer bytes) = .ok (buffer (bytes ++ vs))) ∨
    (¬ ∃ vs, Octets rest vs ∧ idx + vs.length = 4) ∧
      Fails (ipv4Loop size off rest start idx 0 (buffer bytes)) := by
  induction hn : rest.length using Nat.strong_induction_on generalizing rest start idx bytes with
  | _ n ih =>
  obtain ⟨d, t, rfl, hd, ht⟩ := exists_split IsDigit rest
  obtain ⟨v, hv, hloop⟩ | ⟨hno, hfails⟩ :
      (∃ v, DecOctet d v ∧ ipv4Loop size off (d ++ t) start idx 0 (buffer bytes) = _) ∨ _ :=
    ipv4Loop_octet hd ht hstart
  · rw [hloop]
    have hle := hv.le
    have hpos := length_pos_of_ne_nil hv.pos
    have hstore : store (buffer bytes) (off + idx) v = .ok (buffer (bytes ++ [v])) := by
      rw [hoff]
      exact store_buffer (by omega) (by omega)
    rw [length_append] at hstart hn
    cases t with
    | nil =>
      have hne : ¬ size = start := by
        omega
      rw [ipv4Loop, if_neg hne, hstore]
      simp only [append_nil, octets_digits_iff hd]
      by_cases hlast : idx + 1 = 4
      · exact .inl ⟨[v], ⟨v, hv, rfl⟩, hlast, by simp [hlast, bind, Except.bind]; rfl⟩
      refine .inr ⟨?_, ?_⟩
      · rintro ⟨vs, ⟨w, -, rfl⟩, hlen⟩
        exact hlast hlen
      · simp only [bind, Except.bind, hlast, if_false]
        exact fails_ipv4FormatError _ _
    | cons c t =>
      have hc := ht c t rfl
      rw [length_cons] at hstart hn
      have hcursor : position size (c :: t) = start + d.length := by
        rw [position, length_cons]
        omega
      rw [ipv4Loop, if_neg fun h => hc (xor_le_nine_iff.1 h), hcursor, if_neg (by omega), hstore]
      simp only [octets_split_iff hd hc, bind, Except.bind]
      by_cases hdot : c = kDot
      swap
      · refine .inr ⟨fun ⟨vs, h, _⟩ => hdot h.1, ?_⟩
        rw [if_neg hdot]
        exact fails_ipv4FormatError _ _
      rw [if_pos hdot]
      by_cases hmore : idx + 1 < 4
      · rw [if_pos hmore]
        have hlen : (bytes ++ [v]).length = bytes.length + 1 := length_append
        have hstart' : start + d.length + 1 + t.length = size := by omega
        have hoff' : off + (idx + 1) = (bytes ++ [v]).length := by omega
        obtain ⟨vs, hvs, hlen', hok⟩ | ⟨hnone, hfails⟩ :=
          ih t.length (by omega) hstart' hmore hoff' (by omega) rfl
        · refine .inl ⟨v :: vs, ⟨hdot, v, vs, hv, hvs, rfl⟩, ?_, ?_⟩
          · rw [length_cons]
            omega
          · simpa using hok
        · refine .inr ⟨?_, hfails⟩
          rintro ⟨vs, ⟨-, w, vs', -, hvs', rfl⟩, hlen'⟩
          rw [length_cons] at hlen'
          exact hnone ⟨vs', hvs', by omega⟩
      · refine .inr ⟨?_, ?_⟩
        · rintro ⟨vs, ⟨-, w, vs', -, hvs', rfl⟩, hlen'⟩
          have : 0 < vs'.length := by
            cases hvs' <;> simp
          rw [length_cons] at hlen'
          omega
        · rw [if_neg hmore]
          exact fails_ipv4FormatError _ _
  · refine .inr ⟨?_, hfails⟩
    rintro ⟨vs, hvs, -⟩
    cases t with
    | nil =>
      rw [append_nil, octets_digits_iff hd] at hvs
      obtain ⟨v, hv, -⟩ := hvs
      exact hno ⟨v, hv⟩
    | cons c t =>
      obtain ⟨-, v, vs', hv, -⟩ := (octets_split_iff hd (ht c t rfl)).1 hvs
      exact hno ⟨v, hv⟩

end

theorem parseIPv4Address_spec {size : ℕ} {part bytes : List ℕ} (hsize : part.length ≤ size)
    (hfits : bytes.length ≤ 12) : (∃ vs, IPv4 part vs ∧
      parseIPv4Address size part (buffer bytes) bytes.length = .ok (buffer (bytes ++ vs))) ∨
    (¬ ∃ vs, IPv4 part vs) ∧ Fails (parseIPv4Address size part (buffer bytes) bytes.length) := by
  have hstart : position size part + part.length = size := Nat.sub_add_cancel hsize
  obtain ⟨vs, hvs, hlen, hok⟩ | ⟨hno, hfails⟩ :=
    ipv4Loop_spec hstart (by omega) (Nat.add_zero bytes.length) (by omega)
  · exact .inl ⟨vs, ⟨hvs, by omega⟩, hok⟩
  · exact .inr ⟨fun ⟨vs, hvs⟩ => hno ⟨vs, hvs.1, by rw [Nat.zero_add]; exact hvs.2⟩, hfails⟩

section

variable {h t b : List ℕ} {v c : ℕ}

/-- Parts with a colon between any two, the last of which may be an IPv4 address. -/
inductive Seq : List ℕ → List ℕ → Prop
  | last {h : List ℕ} {v : ℕ} (hh : H16 h v) : Seq h (bytesOf v)
  | ipv4 {t b : List ℕ} (ht : IPv4 t b) : Seq t b
  | cons {h t b : List ℕ} {v : ℕ} (hh : H16 h v) (ht : Seq t b) :
    Seq (h ++ kColon :: t) (bytesOf v ++ b)

theorem H16.unique {v' : ℕ} (hh : H16 h v) (hh' : H16 h v') : v = v' :=
  hh.value.symm.trans hh'.value

theorem hexValue_lt {acc : ℕ} (hh : ∀ c ∈ h, hexVal c ≠ none) :
    hexValue acc h < (acc + 1) * 16 ^ h.length := by
  induction h generalizing acc with
  | nil => simp [hexValue]
  | cons c h ih =>
    obtain ⟨hc, hh⟩ := forall_mem_cons.1 hh
    obtain ⟨d, hd⟩ := Option.ne_none_iff_exists'.1 hc
    have hd' := hexVal_lt hd
    have hstep : hexValue acc (c :: h) = hexValue (acc * 16 + d) h := by
      simp [hexValue, hd]
    calc hexValue acc (c :: h) < (acc * 16 + d + 1) * 16 ^ h.length := hstep ▸ ih hh
      _ ≤ ((acc + 1) * 16) * 16 ^ h.length := Nat.mul_le_mul_right _ (by omega)
      _ = (acc + 1) * 16 ^ (c :: h).length := by rw [length_cons, Nat.pow_succ']; ring

theorem H16.lt (hh : H16 h v) : v < 65536 := by
  have hlt : hexValue 0 h < (0 + 1) * 16 ^ h.length := hexValue_lt hh.hex
  have hle : 16 ^ h.length ≤ 16 ^ 4 := Nat.pow_le_pow_right (by norm_num) hh.length_le
  rw [hh.value] at hlt
  omega

/-- An IPv4 address starts with digits and a dot. -/
theorem IPv4.split (ht : IPv4 t b) :
    ∃ o v t' vs, DecOctet o v ∧ t = o ++ kDot :: t' ∧ b = v :: vs := by
  obtain ⟨hoctets, hlen⟩ := ht
  obtain ⟨o, v, ho, ⟨-, rfl⟩ | ⟨t', vs', rfl, rfl, -⟩⟩ := hoctets.split
  · exact absurd hlen (by simp)
  · exact ⟨o, v, t', vs', ho, rfl, rfl⟩

theorem mul_pow_le_decValue (a : ℕ) (o : List ℕ) : a * 10 ^ o.length ≤ decValue a o := by
  induction o generalizing a with
  | nil => simp [decValue]
  | cons c o ih =>
    calc a * 10 ^ (o.length + 1) = a * 10 * 10 ^ o.length := by ring
      _ ≤ (a * 10 + (c - 0x30)) * 10 ^ o.length := Nat.mul_le_mul_right _ (Nat.le_add_right _ _)
      _ ≤ decValue a (c :: o) := ih _

theorem DecOctet.length_le {o : List ℕ} (ho : DecOctet o v) : o.length ≤ 3 := by
  obtain hone | hzero := ho.no_leading_zero
  · omega
  cases o with
  | nil => exact absurd rfl ho.pos
  | cons c o =>
    have hdigit := ho.digit c mem_cons_self
    have hc : 1 ≤ 0 * 10 + (c - 0x30) := by
      have : c ≠ 0x30 := by simpa using hzero
      have := hdigit.1
      omega
    have hvalue : decValue (0 * 10 + (c - 0x30)) o ≤ 255 := ho.value ▸ ho.le
    have hpow : 10 ^ o.length < 10 ^ 3 :=
      calc 10 ^ o.length = 1 * 10 ^ o.length := (Nat.one_mul _).symm
        _ ≤ _ := Nat.mul_le_mul_right _ hc
        _ ≤ _ := mul_pow_le_decValue _ o
        _ < 10 ^ 3 := by omega
    have hlt := (Nat.pow_lt_pow_iff_right (by decide)).1 hpow
    rw [length_cons]
    omega

theorem DecOctet.hex {o : List ℕ} (ho : DecOctet o v) : ∀ x ∈ o, hexVal x ≠ none :=
  fun x hx => hexVal_ne_none_of_isDigit (ho.digit x hx)

/-- A text that ends with its hexadecimal digits. -/
theorem seq_hex_iff (hh : ∀ x ∈ h, hexVal x ≠ none) : Seq h b ↔ ∃ v, H16 h v ∧ b = bytesOf v := by
  constructor
  · intro hs
    cases hs with
    | last hh => exact ⟨_, hh, rfl⟩
    | ipv4 ht =>
      obtain ⟨o, v, t', vs, -, rfl, -⟩ := ht.split
      exact absurd hexVal_dot (hh kDot (by simp))
    | cons _ _ => exact absurd hexVal_colon (hh kColon (by simp))
  · rintro ⟨v, hv, rfl⟩
    exact .last hv

/-- A text that goes on after its hexadecimal digits. -/
theorem seq_split_iff (hh : ∀ x ∈ h, hexVal x ≠ none) (hc : hexVal c = none) :
    Seq (h ++ c :: t) b ↔ (c = kColon ∧ ∃ v b', H16 h v ∧ Seq t b' ∧ b = bytesOf v ++ b') ∨
      (c = kDot ∧ IPv4 (h ++ c :: t) b ∧ ∃ v, DecOctet h v) := by
  have hc' : ¬ hexVal c ≠ none := by simp [hc]
  constructor
  · intro hs
    generalize htext : h ++ c :: t = text at hs
    cases hs with
    | last hv => exact absurd hc (hv.hex c (by simp [← htext]))
    | ipv4 ht =>
      obtain ⟨o, v, t', vs, ho, heq, -⟩ := ht.split
      obtain ⟨rfl, rfl, -⟩ := split_unique hh ho.hex hc' (by simp [hexVal_dot]) (htext.trans heq)
      exact .inr ⟨rfl, ht, v, ho⟩
    | cons hv ht =>
      obtain ⟨rfl, rfl, rfl⟩ := split_unique hh hv.hex hc' (by simp) htext
      exact .inl ⟨rfl, _, _, hv, ht, rfl⟩
  · rintro (⟨rfl, v, b', hv, ht, rfl⟩ | ⟨-, ht, -⟩)
    · exact .cons hv ht
    · exact .ipv4 ht

theorem Seq.two_le (hs : Seq t b) : 2 ≤ b.length := by
  cases hs with
  | last _ => exact le_rfl
  | ipv4 ht => rw [ht.2]; omega
  | cons _ _ => simp [bytesOf]

end

variable {size : ℕ} {h t part rest bytes : List ℕ} {v c n k hex : ℕ} {dec : Bool} {s : Parts}
  {w : ℤ}

theorem fails_error {α : Type} (msg : String) (pos : Option ℕ) :
    Fails (error msg pos : Except Exn α) := ⟨_, _, rfl⟩

/-- The digits of a part, of which `k` are read. -/
theorem partsLoop_digits (hh : ∀ x ∈ h, hexVal x ≠ none) (hpart : part.length = (h ++ t).length + k)
    (hk : k ≤ 4) : (k + h.length ≤ 4 ∧ partsLoop size (h ++ t) part hex dec s =
      partsLoop size t part (hexValue hex h) (dec && h.all fun c => decide (IsDigit c)) s) ∨
    4 < k + h.length ∧ Fails (partsLoop size (h ++ t) part hex dec s) := by
  induction h generalizing k hex dec with
  | nil => exact .inl ⟨hk, by simp [hexValue]⟩
  | cons c h ih =>
    obtain ⟨hc, hh⟩ := forall_mem_cons.1 hh
    obtain ⟨d, hd⟩ := Option.ne_none_iff_exists'.1 hc
    have hdigit : hexDigit c = some (d, decide (IsDigit c)) := by rw [hexDigit_eq, hd]; rfl
    have hstep : hexValue hex (c :: h) = hexValue (hex * 16 + d) h := by simp [hexValue, hd]
    rw [cons_append] at hpart ⊢
    rw [partsLoop, hdigit]
    simp only
    by_cases hlt : part.length < (c :: (h ++ t)).length + 4
    · rw [if_pos hlt]
      rw [length_cons] at hpart hlt
      obtain ⟨hle, hloop⟩ | ⟨hgt, hfails⟩ :
          (_ ∧ partsLoop size (h ++ t) part (hex * 16 + d) (dec && decide (IsDigit c)) s = _) ∨ _ :=
        ih (k := k + 1) hh (by omega) (by omega)
      · refine .inl ⟨by rw [length_cons]; omega, ?_⟩
        rw [hloop, hstep, all_cons, Bool.and_assoc]
      · exact .inr ⟨by rw [length_cons]; omega, hfails⟩
    · refine .inr ⟨?_, ?_⟩
      · rw [length_cons] at hpart hlt ⊢
        omega
      · rw [if_neg hlt]
        exact fails_error _ _

/-- A part that is stored: what `closePart` does at a character that is no dot. -/
theorem closePart_store (hlt : rest.length < part.length) (hdot : c ≠ kDot) (hv : v < 65536)
    (hn : bytes.length = 2 * n) (hn8 : n ≤ 8) :
    closePart size c rest part v dec ⟨w, n, buffer bytes⟩ =
      if n < 8 then
        if c = kColon then
          if n + 1 < 8 then .ok (.more 0 true ⟨w, n + 1, buffer (bytes ++ bytesOf v)⟩)
          else error "an address must contain at most 8 parts" (some (position size rest))
        else .ok (.stop rest ⟨w, n + 1, buffer (bytes ++ bytesOf v)⟩)
      else .error (.range 16) := by
  rw [closePart, if_pos hlt, if_neg hdot]
  by_cases hlt8 : n < 8
  · have hhigh : v >>> 8 = v / 256 := Nat.shiftRight_eq_div_pow v 8
    have hlow : v &&& 0xFF = v % 256 := Nat.and_two_pow_sub_one_eq_mod v 8
    have h1 : store (buffer bytes) (n * 2) (v >>> 8) = .ok (buffer (bytes ++ [v / 256])) := by
      rw [hhigh, Nat.mul_comm, ← hn]
      exact store_buffer (by omega) (by omega)
    have hlen : (bytes ++ [v / 256]).length = n * 2 + 1 := by simp; omega
    have h2 : store (buffer (bytes ++ [v / 256])) (n * 2 + 1) (v &&& 0xFF) =
        .ok (buffer (bytes ++ bytesOf v)) := by
      rw [hlow, ← hlen, store_buffer (by omega) (by omega), append_assoc]
      rfl
    simp only [h1, h2, bind, Except.bind, if_pos hlt8]
    rfl
  · obtain rfl : n = 8 := by omega
    have hstore : store (buffer bytes) (8 * 2) (v >>> 8) = .error (.range 16) := by
      rw [store, if_neg]
      simp [buffer]
      omega
    simp [hstore, bind, Except.bind]

theorem partsLoop_nil : partsLoop size [] part hex dec s =
    (closePart size 0 [] part hex dec s).bind fun
      | .more _ _ s => finish size [] s
      | .stop rest s => finish size rest s := rfl

theorem partsLoop_cons (hc : hexVal c = none) : partsLoop size (c :: t) part hex dec s =
    (closePart size c (c :: t) part hex dec s).bind fun
      | .more hex dec s => partsLoop size t t hex dec s
      | .stop rest s => finish size rest s := by
  have hdigit : hexDigit c = none := by rw [hexDigit_eq, hc]; rfl
  rw [partsLoop, hdigit]
  rfl

/-- A part that is not followed by a digit or a dot. -/
def Over (rest : List ℕ) : Prop :=
  ∃ h v t, H16 h v ∧ rest = h ++ t ∧ ∀ c t', t = c :: t' → hexVal c = none ∧ c ≠ kDot

variable (hh : ∀ x ∈ h, hexVal x ≠ none)

include hh

/-- What a text starts with that goes on after its hexadecimal digits. -/
theorem over_split_iff (hc : hexVal c = none) :
    Over (h ++ c :: t) ↔ (∃ v, H16 h v) ∧ c ≠ kDot := by
  constructor
  · rintro ⟨h', v, t', hv, heq, ht'⟩
    cases t' with
    | nil =>
      rw [append_nil] at heq
      exact absurd hc (hv.hex c (by simp [← heq]))
    | cons c' t' =>
      obtain ⟨hc', hdot⟩ := ht' c' t' rfl
      obtain ⟨rfl, rfl, rfl⟩ := split_unique hh hv.hex (by simp [hc]) (by simp [hc']) heq
      exact ⟨⟨v, hv⟩, hdot⟩
  · rintro ⟨⟨v, hv⟩, hdot⟩
    refine ⟨h, v, c :: t, hv, rfl, fun c' t' heq => ?_⟩
    obtain ⟨rfl, -⟩ := cons.inj heq
    exact ⟨hc, hdot⟩

theorem over_hex_iff : Over h ↔ ∃ v, H16 h v := by
  constructor
  · rintro ⟨h', v, t', hv, rfl, ht'⟩
    cases t' with
    | nil => exact ⟨v, by rwa [append_nil]⟩
    | cons c' t' => exact absurd (ht' c' t' rfl).1 (hh c' (by simp))
  · rintro ⟨v, hv⟩
    exact ⟨h, v, [], hv, by simp, by simp⟩

/-- Parts, each with its colon, and one more colon. -/
def HasWildcard (rest : List ℕ) : Prop :=
  ∃ j t b right, Groups j t b ∧ rest = t ++ kColon :: right

theorem hasWildcard_split (hc : hexVal c = none)
    (hw : HasWildcard (h ++ c :: t)) : c = kColon ∧ (h = [] ∨ ∃ v, H16 h v) := by
  obtain ⟨j, t', b, right, hg, heq⟩ := hw
  cases hg with
  | zero =>
    have hnil : ∀ x ∈ ([] : List ℕ), hexVal x ≠ none := by simp
    obtain ⟨rfl, rfl, -⟩ := split_unique hh hnil (by simp [hc]) (by simp) heq
    exact ⟨rfl, .inl rfl⟩
  | succ hv _ =>
    rw [append_assoc, cons_append] at heq
    obtain ⟨rfl, rfl, -⟩ := split_unique hh hv.hex (by simp [hc]) (by simp) heq
    exact ⟨rfl, .inr ⟨_, hv⟩⟩

theorem not_hasWildcard_hex : ¬ HasWildcard h := by
  rintro ⟨j, t', b, right, -, rfl⟩
  exact hh kColon (by simp) hexVal_colon

omit hh

/-- The ways in which the loop can meet the rest of the string at the start of a part. -/
inductive Meets (size n : ℕ) (w : ℤ) (bytes : List ℕ) : List ℕ → Except Exn (List ℕ) → Prop
  | atEnd {r : Except Exn (List ℕ)}
      (hr : w = n - 1 ∧ r = finish size [] ⟨w, n, buffer bytes⟩ ∨ w ≠ n - 1 ∧ Fails r) :
    Meets size n w bytes [] r
  | colon {t : List ℕ} {r : Except Exn (List ℕ)}
      (hr : w < 0 ∧ r = partsLoop size t t 0 true ⟨n, n + 1, buffer bytes⟩ ∨ 0 ≤ w ∧ Fails r) :
    Meets size n w bytes (kColon :: t) r
  | part {h : List ℕ} {v : ℕ} {r : Except Exn (List ℕ)} (hh : H16 h v)
      (hr : n < 8 ∧ r = finish size [] ⟨w, n + 1, buffer (bytes ++ bytesOf v)⟩ ∨
        n = 8 ∧ r = .error (.range 16)) :
    Meets size n w bytes h r
  | partColon {h t : List ℕ} {v : ℕ} {r : Except Exn (List ℕ)} (hh : H16 h v)
      (hr : n < 7 ∧ r = partsLoop size t t 0 true ⟨w, n + 1, buffer (bytes ++ bytesOf v)⟩ ∨
        n = 7 ∧ Fails r ∨ n = 8 ∧ r = .error (.range 16)) :
    Meets size n w bytes (h ++ kColon :: t) r
  | ipv4 {t b : List ℕ} (hn : n ≤ 6) (ht : IPv4 t b) :
    Meets size n w bytes t (finish size [] ⟨w, n + 2, buffer (bytes ++ b)⟩)
  | bad {rest : List ℕ} {r : Except Exn (List ℕ)} (hne : rest ≠ [])
      (hseq : ∀ b, Seq rest b → 16 < 2 * n + b.length) (hwild : ¬ HasWildcard rest)
      (hr : (n = 8 ∧ Over rest) ∧ r = .error (.range 16) ∨ ¬ (n = 8 ∧ Over rest) ∧ Fails r) :
    Meets size n w bytes rest r

theorem fails_finish (hrest : rest ≠ []) : Fails (finish size rest s) := by
  rw [finish, if_pos hrest]
  exact fails_error _ _

theorem fails_bind {α β : Type} {x : Except Exn α} (hx : Fails x) (f : α → Except Exn β) :
    Fails (x.bind f) := by
  obtain ⟨msg, pos, rfl⟩ := hx
  exact ⟨msg, pos, rfl⟩

/-- The dot after a part. -/
theorem meets_dot (hv : H16 h v) (hn : bytes.length = 2 * n)
    (hsize : (h ++ kDot :: t).length ≤ size) : Meets size n w bytes (h ++ kDot :: t)
      (partsLoop size (kDot :: t) (h ++ kDot :: t) v (h.all fun c => decide (IsDigit c))
        ⟨w, n, buffer bytes⟩) := by
  have hpos := length_pos_of_ne_nil hv.pos
  have hlt : (kDot :: t).length < (h ++ kDot :: t).length := by
    rw [length_append]
    omega
  have hover : ¬ (n = 8 ∧ Over (h ++ kDot :: t)) := by
    rw [over_split_iff hv.hex hexVal_dot]
    exact fun hno => hno.2.2 rfl
  have hwild : ¬ HasWildcard (h ++ kDot :: t) := fun hw =>
    absurd (hasWildcard_split hv.hex hexVal_dot hw).1 (by decide)
  have hseq : ∀ b, Seq (h ++ kDot :: t) b → IPv4 (h ++ kDot :: t) b ∧ ∃ v, DecOctet h v := by
    intro b hb
    obtain ⟨hcolon, -⟩ | ⟨-, hb⟩ := (seq_split_iff hv.hex hexVal_dot).1 hb
    · exact absurd hcolon (by decide)
    · exact hb
  rw [partsLoop_cons hexVal_dot, closePart, if_pos hlt, if_pos rfl]
  by_cases hdec : (h.all fun c => decide (IsDigit c)) = true
  · rw [if_pos hdec]
    by_cases hn6 : n ≤ 6
    · rw [if_pos hn6, Nat.mul_comm n, ← hn]
      obtain ⟨b, hb, hok⟩ | ⟨hno, hfails⟩ :=
        parseIPv4Address_spec hsize (show bytes.length ≤ 12 by omega)
      · rw [hok]
        exact .ipv4 hn6 hb
      · exact .bad (by simp) (fun b hb => absurd ⟨b, (hseq b hb).1⟩ hno) hwild
          (.inr ⟨hover, fails_bind (fails_bind hfails _) _⟩)
    · rw [if_neg hn6]
      refine .bad (by simp) (fun b hb => ?_) hwild (.inr ⟨hover, fails_bind (fails_error _ _) _⟩)
      rw [(hseq b hb).1.2]
      omega
  · rw [if_neg hdec]
    refine .bad (by simp) (fun b hb => ?_) hwild (.inr ⟨hover, fails_finish (by simp)⟩)
    obtain ⟨-, v', ho⟩ := hseq b hb
    exact absurd (all_eq_true.2 fun c hc => decide_eq_true (ho.digit c hc)) hdec

/-- **The loop meets every rest in one of the ways.** -/
theorem partsLoop_meets (hn : bytes.length = 2 * n) (hn8 : n ≤ 8) (hsize : rest.length ≤ size) :
    Meets size n w bytes rest (partsLoop size rest rest 0 true ⟨w, n, buffer bytes⟩) := by
  obtain ⟨h, t, rfl, hh, ht⟩ := exists_split (fun c => hexVal c ≠ none) rest
  have ht' : ∀ c t', t = c :: t' → hexVal c = none := fun c t' heq => by simpa using ht c t' heq
  obtain ⟨hle, hloop⟩ | ⟨hgt, hfails⟩ :
      (_ ∧ partsLoop size (h ++ t) (h ++ t) 0 true ⟨w, n, buffer bytes⟩ = _) ∨ _ :=
    partsLoop_digits (k := 0) hh rfl (Nat.zero_le 4)
  · rw [Nat.zero_add] at hle
    rw [hloop, Bool.true_and]
    by_cases hnil : h = []
    · -- no digit
      subst hnil
      cases t with
      | nil =>
        rw [partsLoop_nil, closePart, if_neg (by simp), if_neg (by decide)]
        by_cases hw : w = n - 1
        · exact .atEnd (.inl ⟨hw, by rw [if_neg (by simpa using hw)]; rfl⟩)
        · refine .atEnd (.inr ⟨hw, ?_⟩)
          rw [if_pos hw]
          exact fails_bind (fails_error _ _) _
      | cons c t =>
        have hc := ht' c t rfl
        rw [nil_append, partsLoop_cons hc, closePart, if_neg (by simp)]
        by_cases hcolon : c = kColon
        · subst hcolon
          by_cases hw : w < 0
          · exact .colon (.inl ⟨hw, by rw [if_pos hw]; rfl⟩)
          · refine .colon (.inr ⟨by omega, ?_⟩)
            rw [if_neg hw]
            exact fails_bind (fails_error _ _) _
        have hempty : ∀ x ∈ ([] : List ℕ), hexVal x ≠ none := by simp
        refine .bad (by simp) (fun b hb => ?_) (fun hwild => ?_) (.inr ⟨fun hno => ?_, ?_⟩)
        · obtain ⟨hcolon', -⟩ | ⟨-, -, v', ho⟩ := (seq_split_iff (h := []) hempty hc).1 hb
          · exact absurd hcolon' hcolon
          · exact absurd rfl ho.pos
        · exact hcolon (hasWildcard_split (h := []) hempty hc hwild).1
        · obtain ⟨⟨v, hv⟩, -⟩ := (over_split_iff (h := []) hempty hc).1 hno.2
          exact hv.pos rfl
        · split_ifs
          · exact fails_bind (fails_error _ _) _
          · exact fails_finish (by simp)
    · have hv : H16 h (hexValue 0 h) := ⟨hh, hnil, hle, rfl⟩
      have hpos := length_pos_of_ne_nil hnil
      cases t with
      | nil =>
        have hlt : ([] : List ℕ).length < (h ++ []).length := by simpa using hpos
        rw [partsLoop_nil, closePart_store hlt (by decide) hv.lt hn hn8]
        rw [append_nil]
        by_cases hn7 : n < 8
        · exact .part hv (.inl ⟨hn7, by rw [if_pos hn7, if_neg (by decide)]; rfl⟩)
        · exact .part hv (.inr ⟨by omega, by rw [if_neg hn7]; rfl⟩)
      | cons c t =>
        have hc := ht' c t rfl
        by_cases hdot : c = kDot
        · subst hdot
          exact meets_dot hv hn hsize
        have hlt : (c :: t).length < (h ++ c :: t).length := by
          rw [length_append]
          omega
        rw [partsLoop_cons hc, closePart_store hlt hdot hv.lt hn hn8]
        by_cases hcolon : c = kColon
        · subst hcolon
          refine .partColon hv ?_
          rcases (by omega : n < 7 ∨ n = 7 ∨ n = 8) with h7 | rfl | rfl
          · exact .inl ⟨h7, by rw [if_pos (by omega), if_pos rfl, if_pos (by omega)]; rfl⟩
          · exact .inr (.inl ⟨rfl, fails_bind (fails_error _ _) _⟩)
          · exact .inr (.inr ⟨rfl, rfl⟩)
        refine .bad (by simp) (fun b hb => ?_)
          (fun hwild => hcolon (hasWildcard_split hh hc hwild).1) ?_
        · obtain ⟨hcolon', -⟩ | ⟨hdot', -⟩ := (seq_split_iff hh hc).1 hb
          · exact absurd hcolon' hcolon
          · exact absurd hdot' hdot
        · by_cases hn7 : n < 8
          · refine .inr ⟨fun hno => absurd hno.1 (by omega), ?_⟩
            rw [if_pos hn7, if_neg hcolon]
            exact fails_finish (by simp)
          · exact .inl ⟨⟨by omega, (over_split_iff hh hc).2 ⟨⟨_, hv⟩, hdot⟩⟩,
              by rw [if_neg hn7]; rfl⟩
  · -- too many digits
    have hlong : ∀ v, ¬ H16 h v := fun v hv => absurd hv.length_le (by omega)
    have hne : h ++ t ≠ [] := fun hnil => by
      rw [(append_eq_nil_iff.1 hnil).1] at hgt
      exact absurd hgt (by simp)
    refine .bad hne (fun b hb => ?_) (fun hwild => ?_) (.inr ⟨fun hno => ?_, hfails⟩)
    · cases t with
      | nil =>
        rw [append_nil, seq_hex_iff hh] at hb
        obtain ⟨v, hv, -⟩ := hb
        exact absurd hv (hlong v)
      | cons c t =>
        obtain ⟨-, v, b', hv, -⟩ | ⟨-, -, v', ho⟩ := (seq_split_iff hh (ht' c t rfl)).1 hb
        · exact absurd hv (hlong v)
        · exact absurd ho.length_le (by omega)
    · cases t with
      | nil =>
        rw [append_nil] at hwild
        exact not_hasWildcard_hex hh hwild
      | cons c t =>
        obtain ⟨-, rfl | ⟨v, hv⟩⟩ := hasWildcard_split hh (ht' c t rfl) hwild
        · exact absurd hgt (by simp)
        · exact hlong v hv
    · cases t with
      | nil =>
        rw [append_nil] at hno
        obtain ⟨v, hv⟩ := (over_hex_iff hh).1 hno.2
        exact hlong v hv
      | cons c t =>
        obtain ⟨⟨v, hv⟩, -⟩ := (over_split_iff hh (ht' c t rfl)).1 hno.2
        exact hlong v hv

end Ipv6
