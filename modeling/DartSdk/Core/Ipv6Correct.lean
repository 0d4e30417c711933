import DartSdk.Core.Ipv6Parts

/-!
# Core/Ipv6Correct — the addresses that `parseIPv6Address` accepts

The parser returns the bytes of an address and throws a `FormatException` for any other string — but
for one shape: seven parts, the wildcard and one more part (`Overflows`).  There the wildcard is the
eighth part, the next one is written behind the buffer, and a `RangeError` is thrown.
-/

namespace Ipv6

open List

/-- What the parser does with a string that denotes the bytes of `A`, and that overflows under
`past`. -/
inductive Outcome (A : List ℕ → Prop) (past : Prop) : Except Exn (List ℕ) → Prop
  | ok {b : List ℕ} (hb : A b) (hA : ∀ b', A b' → b' = b) (ho : ¬ past) : Outcome A past (.ok b)
  | fails {r : Except Exn (List ℕ)} (hA : ∀ b, ¬ A b) (ho : ¬ past) (hr : Fails r) :
    Outcome A past r
  | range (hA : ∀ b, ¬ A b) (ho : past) : Outcome A past (.error (.range 16))

section

variable {A A' : List ℕ → Prop} {past past' : Prop} {r : Except Exn (List ℕ)}

theorem Outcome.congr (h : Outcome A past r) (hA : ∀ b, A' b ↔ A b) (ho : past' ↔ past) :
    Outcome A' past' r := by
  obtain rfl : A' = A := funext fun b => propext (hA b)
  rwa [propext ho]

end

/-! ## The rest of the string -/

section

variable {h t b b' l rb right : List ℕ} {v m : ℕ}

theorem Octets.unique {vs vs' : List ℕ} (hs : Octets t vs) (hs' : Octets t vs') : vs = vs' := by
  induction hs generalizing vs' with
  | last ho =>
    obtain ⟨v', ho', rfl⟩ := (octets_digits_iff ho.digit).1 hs'
    rw [ho.value.symm.trans ho'.value]
  | cons ho _ ih =>
    obtain ⟨-, v', vs', ho', ht', rfl⟩ := (octets_split_iff ho.digit not_isDigit_dot).1 hs'
    rw [ho.value.symm.trans ho'.value, ih ht']

theorem not_seq_nil : ¬ Seq [] b := fun hs => by
  obtain ⟨v, hv, -⟩ := (seq_hex_iff (by simp)).1 hs
  exact hv.pos rfl

theorem not_seq_colon : ¬ Seq (kColon :: t) b := fun hs => by
  have hnil : ∀ x ∈ ([] : List ℕ), hexVal x ≠ none := by simp
  obtain ⟨-, v, b', hv, -⟩ | ⟨hdot, -⟩ := (seq_split_iff (t := t) hnil hexVal_colon).1 hs
  · exact hv.pos rfl
  · exact absurd hdot (by decide)

/-- A text after a part and its colon. -/
theorem seq_part_iff (hh : H16 h v) :
    Seq (h ++ kColon :: t) b ↔ ∃ b', Seq t b' ∧ bytesOf v ++ b' = b := by
  rw [seq_split_iff hh.hex hexVal_colon]
  constructor
  · rintro (⟨-, v', b', hv', ht, rfl⟩ | ⟨hdot, -⟩)
    · exact ⟨b', ht, by rw [hh.unique hv']⟩
    · exact absurd hdot (by decide)
  · rintro ⟨b', ht, rfl⟩
    exact .inl ⟨rfl, v, b', hh, ht, rfl⟩

theorem seq_last_iff (hh : H16 h v) : Seq h b ↔ b = bytesOf v := by
  rw [seq_hex_iff hh.hex]
  constructor
  · rintro ⟨v', hv', rfl⟩
    rw [hh.unique hv']
  · rintro rfl
    exact ⟨v, hh, rfl⟩

theorem seq_ipv4_iff (ht : IPv4 t b) : Seq t b' ↔ b' = b := by
  constructor
  · intro hs
    obtain ⟨o, v, t', vs, ho, rfl, -⟩ := ht.split
    obtain ⟨hcolon, -⟩ | ⟨-, ht', -⟩ := (seq_split_iff ho.hex hexVal_dot).1 hs
    · exact absurd hcolon (by decide)
    · exact ht'.1.unique ht.1
  · rintro rfl
    exact .ipv4 ht

/-- What may follow the second colon of a wildcard. -/
def Right (right rb : List ℕ) : Prop := right = [] ∧ rb = [] ∨ Seq right rb

/-- Parts with their colons, the wildcard's second colon, and what follows. -/
inductive Wild : List ℕ → List ℕ → List ℕ → Prop
  | here {right rb : List ℕ} (hr : Right right rb) : Wild (kColon :: right) [] rb
  | cons {h t l rb : List ℕ} {v : ℕ} (hh : H16 h v) (ht : Wild t l rb) :
    Wild (h ++ kColon :: t) (bytesOf v ++ l) rb

theorem Wild.hasWildcard (hw : Wild t l rb) : HasWildcard t := by
  induction hw with
  | here _ => exact ⟨0, [], [], _, .zero, rfl⟩
  | cons hh _ ih =>
    obtain ⟨j, t', b, right, hg, rfl⟩ := ih
    exact ⟨j + 1, _, _, right, .succ hh hg, by simp⟩

/-- No colon begins a part. -/
theorem H16.ne_colon (hh : H16 h v) : h ++ kColon :: t ≠ kColon :: t' := fun heq => by
  obtain _ | ⟨x, h⟩ := h
  · exact hh.pos rfl
  · obtain ⟨rfl, -⟩ := cons.inj heq
    exact hh.hex _ (by simp) hexVal_colon

theorem wild_colon_iff : Wild (kColon :: t) l rb ↔ l = [] ∧ Right t rb := by
  constructor
  · intro hw
    generalize htext : kColon :: t = text at hw
    cases hw with
    | here hr =>
      obtain rfl := (cons.inj htext).2
      exact ⟨rfl, hr⟩
    | cons hh _ =>
      exact absurd htext.symm hh.ne_colon
  · rintro ⟨rfl, hr⟩
    exact .here hr

theorem wild_part_iff (hh : H16 h v) :
    Wild (h ++ kColon :: t) l rb ↔ ∃ l', Wild t l' rb ∧ l = bytesOf v ++ l' := by
  constructor
  · intro hw
    generalize htext : h ++ kColon :: t = text at hw
    cases hw with
    | here hr =>
      exact absurd htext hh.ne_colon
    | cons hh' ht =>
      obtain ⟨rfl, -, rfl⟩ := split_unique hh.hex hh'.hex (by simp) (by simp) htext
      exact ⟨_, ht, by rw [hh.unique hh']⟩
  · rintro ⟨l', ht, rfl⟩
    exact .cons hh ht

/-- `m` parts with their colons, one more colon, and a part. -/
def OverAt (m : ℕ) (rest : List ℕ) : Prop :=
  ∃ t b right, Groups m t b ∧ rest = t ++ kColon :: right ∧ Over right

theorem OverAt.hasWildcard (ho : OverAt m t) : HasWildcard t := by
  obtain ⟨t', b, right, hg, heq, -⟩ := ho
  exact ⟨m, t', b, right, hg, heq⟩

theorem not_hasWildcard_nil : ¬ HasWildcard [] := not_hasWildcard_hex (by simp)

theorem overAt_colon_iff : OverAt m (kColon :: t) ↔ m = 0 ∧ Over t := by
  constructor
  · rintro ⟨t', b, right, hg, heq, ho⟩
    cases hg with
    | zero =>
      obtain rfl := (cons.inj heq).2
      exact ⟨rfl, ho⟩
    | succ hh _ =>
      rw [append_assoc, cons_append] at heq
      exact absurd heq.symm hh.ne_colon
  · rintro ⟨rfl, ho⟩
    exact ⟨[], [], t, .zero, rfl, ho⟩

theorem overAt_part_iff (hh : H16 h v) :
    OverAt m (h ++ kColon :: t) ↔ ∃ m', m = m' + 1 ∧ OverAt m' t := by
  constructor
  · rintro ⟨t', b, right, hg, heq, ho⟩
    cases hg with
    | zero =>
      exact absurd heq hh.ne_colon
    | @succ m' _ _ _ _ hh' hg' =>
      rw [append_assoc, cons_append] at heq
      obtain ⟨-, -, rfl⟩ := split_unique hh.hex hh'.hex (by simp) (by simp) heq
      exact ⟨m', rfl, _, _, right, hg', rfl, ho⟩
  · rintro ⟨m', rfl, t', b, right, hg, rfl, ho⟩
    exact ⟨_, _, right, .succ hh hg, by simp, ho⟩

theorem not_over_nil : ¬ Over [] := fun ho => by
  obtain ⟨v, hv⟩ := (over_hex_iff (by simp)).1 ho
  exact hv.pos rfl

theorem not_over_colon : ¬ Over (kColon :: t) := fun ho => by
  have hnil : ∀ x ∈ ([] : List ℕ), hexVal x ≠ none := by simp
  obtain ⟨⟨v, hv⟩, -⟩ := (over_split_iff (t := t) hnil hexVal_colon).1 ho
  exact hv.pos rfl

theorem H16.over (hh : H16 h v) : Over h := (over_hex_iff hh.hex).2 ⟨v, hh⟩

theorem H16.over_colon (hh : H16 h v) : Over (h ++ kColon :: t) :=
  (over_split_iff hh.hex hexVal_colon).2 ⟨⟨v, hh⟩, by decide⟩

theorem IPv4.ne_nil (ht : IPv4 t b) : t ≠ [] := by
  obtain ⟨o, v, t', vs, ho, rfl, -⟩ := ht.split
  simp

theorem IPv4.not_hasWildcard (ht : IPv4 t b) : ¬ HasWildcard t := by
  obtain ⟨o, v, t', vs, ho, rfl, -⟩ := ht.split
  exact fun hw => absurd (hasWildcard_split ho.hex hexVal_dot hw).1 (by decide)

end

section

variable {size k r w : ℕ} {lb rb : List ℕ}

/-- Without a wildcard there must be eight parts. -/
theorem finish_full (hl : lb.length = 2 * k) (hk : k ≤ 8) :
    k = 8 ∧ finish size [] ⟨-1, k, buffer lb⟩ = .ok lb ∨
      k < 8 ∧ Fails (finish size [] ⟨-1, k, buffer lb⟩) := by
  rw [finish, if_neg (by simp)]
  rcases Nat.lt_or_ge k 8 with hlt | hge
  · refine .inr ⟨hlt, ?_⟩
    rw [if_pos hlt, if_pos (show (-1 : ℤ) < 0 by decide)]
    exact fails_error _ _
  · refine .inl ⟨by omega, ?_⟩
    rw [if_neg (show ¬ k < 8 by omega), buffer, show 16 - lb.length = 0 by omega]
    simp

theorem moveToEnd_right (hl : lb.length = 2 * w) (hr : rb.length = 2 * r) (hn : w + 1 + r < 8) :
    moveToEnd ⟨w, (w + 1 + r : ℕ), buffer (lb ++ [0, 0] ++ rb)⟩ = gap lb rb := by
  have hlen : (lb ++ [0, 0] ++ rb).length = 2 * (w + 1 + r) := by
    simp
    omega
  have hleft : (lb ++ [0, 0]).length = (w + 1) * 2 := by
    simp
    omega
  have hgap : gap lb rb = lb ++ [0, 0] ++ replicate (16 - r * 2 - (w + 1) * 2) 0 ++ rb := by
    rw [gap, show 16 - lb.length - rb.length = 16 - r * 2 - (w + 1) * 2 + 2 by omega]
    simp [replicate_succ]
  have hsize : (buffer (lb ++ [0, 0] ++ rb)).length = 16 := by
    rw [buffer, length_append, length_replicate]
    omega
  rw [moveToEnd, hgap]
  simp only [Int.toNat_natCast, hsize, show w + 1 + r - (w + 1) = r by omega]
  rcases Nat.eq_zero_or_pos r with rfl | hpos
  · rw [if_neg (by decide), length_eq_zero_iff.1 hr, buffer, append_nil, hleft, append_nil]
  · rw [if_pos hpos, buffer, append_assoc (lb ++ [0, 0]), ← hleft, take_left,
      drop_left, show r * 2 = rb.length by omega, take_left]

/-- **What stands after the wildcard is moved to the end.** -/
theorem finish_right {n : ℕ} (hl : lb.length = 2 * w) (hr : rb.length = 2 * r)
    (hn : n = w + 1 + r) (hle : n ≤ 8) :
    finish size [] ⟨w, n, buffer (lb ++ [0, 0] ++ rb)⟩ = .ok (gap lb rb) := by
  subst hn
  have hlen : (lb ++ [0, 0] ++ rb).length = 2 * (w + 1 + r) := by
    simp
    omega
  rw [finish, if_neg (by simp)]
  rcases Nat.lt_or_ge (w + 1 + r) 8 with hlt | hge
  · rw [if_pos hlt, if_neg (show ¬ (w : ℤ) < 0 by omega), moveToEnd_right hl hr hlt]
  · rw [if_neg (show ¬ w + 1 + r < 8 by omega), buffer, gap, hlen,
      show 16 - 2 * (w + 1 + r) = 0 by omega, show 16 - lb.length - rb.length = 2 by omega]
    simp

end

/-! ## The run

The induction over the text: groups before the wildcard, the wildcard, and groups after it. -/

section

variable {size : ℕ} {h lb out rb t bytes rest : List ℕ} {r v : ℕ}

/-- The bytes of an address whose wildcard stands after `lb`, with `r` parts `rb` after it so
far. -/
def AfterWild (lb rb : List ℕ) (r : ℕ) (rest out : List ℕ) : Prop :=
  ∃ b, (r = 0 ∧ rest = [] ∧ b = [] ∨ Seq rest b) ∧
    lb.length + 2 + rb.length + b.length ≤ 16 ∧ out = gap lb (rb ++ b)

theorem bytesOf_length (v : ℕ) : (bytesOf v).length = 2 := rfl

theorem afterWild_part_iff (hh : H16 h v) : AfterWild lb rb r (h ++ kColon :: t) out ↔
      AfterWild lb (rb ++ bytesOf v) (r + 1) t out := by
  unfold AfterWild
  simp only [seq_part_iff hh]
  simp [add_assoc]

/-- The part after a colon needs room. -/
theorem not_afterWild_part (hh : H16 h v)
    (hroom : 10 < lb.length + rb.length) : ¬ AfterWild lb rb r (h ++ kColon :: t) out := by
  intro hout
  obtain ⟨b, ⟨hr, -⟩ | hs, hle, -⟩ := (afterWild_part_iff hh).1 hout
  · exact absurd hr (Nat.succ_ne_zero r)
  · have := hs.two_le
    rw [length_append, bytesOf_length] at hle
    omega

/-- A rest that is one part, or one IPv4 address. -/
theorem afterWild_last_iff (hne : rest ≠ [])
    (hseq : ∀ b, Seq rest b ↔ b = bytes) : AfterWild lb rb r rest out ↔
      lb.length + 2 + rb.length + bytes.length ≤ 16 ∧ out = gap lb (rb ++ bytes) := by
  constructor
  · rintro ⟨b, ⟨-, hnil, -⟩ | hs, hle, rfl⟩
    · exact absurd hnil hne
    · rw [(hseq b).1 hs] at hle ⊢
      exact ⟨hle, rfl⟩
  · rintro ⟨hle, rfl⟩
    exact ⟨bytes, .inr ((hseq bytes).2 rfl), hle, rfl⟩

/-- **The parts after the wildcard.**  Only a wildcard behind seven parts leaves no room for a
part. -/
theorem partsLoop_right {w : ℕ} (hl : lb.length = 2 * w)
    (hr : rb.length = 2 * r) (hn : w + 1 + r ≤ 7 ∨ w = 7 ∧ r = 0) (hsize : rest.length ≤ size) :
    Outcome (AfterWild lb rb r rest) (w = 7 ∧ Over rest)
      (partsLoop size rest rest 0 true ⟨w, (w + 1 + r : ℕ), buffer (lb ++ [0, 0] ++ rb)⟩) := by
  induction hlen : rest.length using Nat.strong_induction_on generalizing rest rb r with
  | _ len ih =>
  subst hlen
  have hbytes : (lb ++ [0, 0] ++ rb).length = 2 * (w + 1 + r) := by
    simp
    omega
  have hmeets := partsLoop_meets (w := w) hbytes (by omega) hsize
  generalize partsLoop size rest rest 0 true ⟨w, w + 1 + r, buffer (lb ++ [0, 0] ++ rb)⟩ = res
    at hmeets
  cases hmeets with
  | atEnd hres =>
    have hover : ¬ (w = 7 ∧ Over []) := fun ho => not_over_nil ho.2
    obtain ⟨hw, rfl⟩ | ⟨hw, hfails⟩ := hres
    · obtain rfl : r = 0 := by omega
      obtain rfl := length_eq_zero_iff.1 hr
      rw [finish_right hl hr rfl (by omega)]
      refine .ok ⟨[], .inl ⟨rfl, rfl, rfl⟩, by omega, rfl⟩ ?_ hover
      rintro _ ⟨b, ⟨-, -, rfl⟩ | hs, -, rfl⟩
      · rfl
      · exact absurd hs not_seq_nil
    · refine .fails ?_ hover hfails
      rintro _ ⟨b, ⟨rfl, -⟩ | hs, -⟩
      · exact hw (by omega)
      · exact not_seq_nil hs
  | colon hres =>
    obtain ⟨hw, -⟩ | ⟨-, hfails⟩ := hres
    · exact absurd hw (by omega)
    refine .fails ?_ (fun ho => not_over_colon ho.2) hfails
    rintro _ ⟨b, ⟨-, hnil, -⟩ | hs, -⟩
    · exact absurd hnil (by simp)
    · exact not_seq_colon hs
  | @part _ v _ hh hres =>
    have hA : ∀ out, AfterWild lb rb r rest out ↔
        lb.length + 2 + rb.length + 2 ≤ 16 ∧ out = gap lb (rb ++ bytesOf v) :=
      fun out => afterWild_last_iff hh.pos (fun b => seq_last_iff hh)
    obtain ⟨hlt, rfl⟩ | ⟨heq, rfl⟩ := hres
    · have hr' : (rb ++ bytesOf v).length = 2 * (r + 1) := by
        rw [length_append, bytesOf_length]
        omega
      rw [append_assoc, finish_right hl hr' (by omega) (by omega)]
      refine .ok ((hA _).2 ⟨by omega, rfl⟩) (fun b hb => ((hA b).1 hb).2) (fun ho => ?_)
      omega
    · refine .range (fun b hb => ?_) ⟨by omega, hh.over⟩
      have := ((hA b).1 hb).1
      omega
  | partColon hh hres =>
    obtain ⟨hlt, rfl⟩ | ⟨heq, hfails⟩ | ⟨heq, rfl⟩ := hres
    · rw [append_assoc]
      refine (ih _ ?_ (r := r + 1) ?_ (.inl (by omega)) ?_ rfl).congr
        (fun out => afterWild_part_iff hh) ?_
      · rw [length_append, length_cons]
        omega
      · rw [length_append, bytesOf_length]
        omega
      · rw [length_append, length_cons] at hsize
        omega
      · exact iff_of_false (fun ho => by omega) (fun ho => by omega)
    · exact .fails (fun out => not_afterWild_part hh (by omega)) (fun ho => by omega) hfails
    · exact .range (fun out => not_afterWild_part hh (by omega)) ⟨by omega, hh.over_colon⟩
  | @ipv4 _ b hn6 ht =>
    have hA : ∀ out, AfterWild lb rb r rest out ↔
        lb.length + 2 + rb.length + b.length ≤ 16 ∧ out = gap lb (rb ++ b) :=
      fun out => afterWild_last_iff ht.ne_nil (fun b => seq_ipv4_iff ht)
    rw [ht.2] at hA
    have hr' : (rb ++ b).length = 2 * (r + 2) := by
      rw [length_append, ht.2]
      omega
    rw [append_assoc, finish_right hl hr' (by omega) (by omega)]
    refine .ok ((hA _).2 ⟨by omega, rfl⟩) (fun b hb => ((hA b).1 hb).2) (fun ho => ?_)
    omega
  | bad hne hseq hwild hres =>
    have hA : ∀ out, ¬ AfterWild lb rb r rest out := by
      rintro _ ⟨b, ⟨-, hnil, -⟩ | hs, hle, rfl⟩
      · exact hne hnil
      · have := hseq b hs
        omega
    have hover : w = 7 ∧ Over rest ↔ w + 1 + r = 8 ∧ Over rest := by
      refine and_congr_left' ?_
      omega
    rw [← hover] at hres
    obtain ⟨ho, rfl⟩ | ⟨ho, hfails⟩ := hres
    · exact .range hA ho
    · exact .fails hA ho hfails

/-- The bytes of an address that starts with the parts `lb`, without a wildcard so far. -/
def BeforeWild (lb rest out : List ℕ) : Prop :=
  (∃ b, Seq rest b ∧ lb.length + b.length = 16 ∧ out = lb ++ b) ∨
  ∃ l rb, Wild rest l rb ∧ lb.length + l.length + 2 + rb.length ≤ 16 ∧ out = gap (lb ++ l) rb

theorem beforeWild_part_iff (hh : H16 h v) :
    BeforeWild lb (h ++ kColon :: t) out ↔ BeforeWild (lb ++ bytesOf v) t out := by
  unfold BeforeWild
  simp only [seq_part_iff hh, wild_part_iff hh]
  -- the bytes of the part change sides
  grind

theorem not_beforeWild_part (hh : H16 h v)
    (hroom : 12 < lb.length) : ¬ BeforeWild lb (h ++ kColon :: t) out := by
  rw [beforeWild_part_iff hh]
  rintro (⟨b, hs, hlen, -⟩ | ⟨l, rb, -, hlen, -⟩)
  · have := hs.two_le
    rw [length_append, bytesOf_length] at hlen
    omega
  · rw [length_append, bytesOf_length] at hlen
    omega

theorem beforeWild_colon_iff : BeforeWild lb (kColon :: t) out ↔ AfterWild lb [] 0 t out := by
  constructor
  · rintro (⟨b, hs, -⟩ | ⟨l, rb, hw, hlen, rfl⟩)
    · exact absurd hs not_seq_colon
    · obtain ⟨rfl, hr⟩ := wild_colon_iff.1 hw
      refine ⟨rb, hr.imp (fun h => ⟨rfl, h⟩) id, hlen, by simp⟩
  · rintro ⟨b, hr, hlen, rfl⟩
    refine .inr ⟨[], b, wild_colon_iff.2 ⟨rfl, hr.imp And.right id⟩, hlen, by simp⟩

/-- A rest that is one part, or one IPv4 address. -/
theorem beforeWild_last_iff (hwild : ¬ HasWildcard rest) (hseq : ∀ b, Seq rest b ↔ b = bytes) :
    BeforeWild lb rest out ↔ lb.length + bytes.length = 16 ∧ out = lb ++ bytes := by
  constructor
  · rintro (⟨b, hs, hlen, rfl⟩ | ⟨l, rb, hw, -⟩)
    · rw [(hseq b).1 hs] at hlen ⊢
      exact ⟨hlen, rfl⟩
    · exact absurd hw.hasWildcard hwild
  · rintro ⟨hlen, rfl⟩
    exact .inl ⟨bytes, (hseq bytes).2 rfl, hlen, rfl⟩

theorem buffer_zeros (hl : lb.length ≤ 14) : buffer lb = buffer (lb ++ [0, 0] ++ []) := by
  rw [buffer, buffer, append_nil, length_append, append_assoc,
    show 16 - lb.length = 16 - (lb.length + [0, 0].length) + 2 by simp; omega]
  rfl

/-- The last part, or the IPv4 address, of an address without a wildcard. -/
theorem outcome_last {k m n : ℕ} (hwild : ¬ HasWildcard rest)
    (hseq : ∀ b, Seq rest b ↔ b = bytes) (hl : lb.length = 2 * k) (hb : bytes.length = 2 * m)
    (hn : n = k + m) (hle : n ≤ 8) : Outcome (BeforeWild lb rest) (OverAt (7 - k) rest)
      (finish size [] ⟨-1, n, buffer (lb ++ bytes)⟩) := by
  have hA : ∀ out, BeforeWild lb rest out ↔ lb.length + bytes.length = 16 ∧ out = lb ++ bytes :=
    fun out => beforeWild_last_iff hwild hseq
  have hover : ¬ OverAt (7 - k) rest := fun ho => hwild ho.hasWildcard
  have hlen : (lb ++ bytes).length = 2 * n := by
    rw [length_append]
    omega
  obtain ⟨h8, hok⟩ | ⟨hlt, hfails⟩ :
      (_ ∧ finish size [] _ = _) ∨ _ ∧ Fails (finish size [] _) := finish_full hlen hle
  · rw [hok]
    exact .ok ((hA _).2 ⟨by omega, rfl⟩) (fun b hb => ((hA b).1 hb).2) hover
  · refine .fails (fun b hb => ?_) hover hfails
    have := ((hA b).1 hb).1
    omega

/-- **The parts before the wildcard.** -/
theorem partsLoop_left {k : ℕ} (hl : lb.length = 2 * k) (hk : k ≤ 7)
    (hstart : k = 0 → rest ≠ [] ∧ ∀ t, rest ≠ kColon :: t) (hsize : rest.length ≤ size) :
    Outcome (BeforeWild lb rest) (OverAt (7 - k) rest)
      (partsLoop size rest rest 0 true ⟨-1, k, buffer lb⟩) := by
  induction hlen : rest.length using Nat.strong_induction_on generalizing rest lb k with
  | _ len ih =>
  subst hlen
  have hmeets := partsLoop_meets (w := -1) hl (by omega) hsize
  generalize partsLoop size rest rest 0 true ⟨-1, k, buffer lb⟩ = res at hmeets
  cases hmeets with
  | atEnd hres =>
    obtain ⟨hw, -⟩ | ⟨-, hfails⟩ := hres
    · exact absurd rfl (hstart (by omega)).1
    refine .fails ?_ (fun ho => not_hasWildcard_nil ho.hasWildcard) hfails
    rintro out (⟨b, hs, -⟩ | ⟨l, rb, hw, -⟩)
    · exact not_seq_nil hs
    · exact not_hasWildcard_nil hw.hasWildcard
  | colon hres =>
    obtain ⟨-, rfl⟩ | ⟨hw, -⟩ := hres
    · rw [buffer_zeros (by omega)]
      refine (partsLoop_right hl rfl (by omega) ?_).congr (fun out => beforeWild_colon_iff) ?_
      · rw [length_cons] at hsize
        omega
      · rw [overAt_colon_iff]
        refine and_congr_left' ?_
        omega
    · exact absurd hw (by decide)
  | part hh hres =>
    obtain ⟨hlt, rfl⟩ | ⟨heq, -⟩ := hres
    · exact outcome_last (not_hasWildcard_hex hh.hex) (fun b => seq_last_iff hh) hl
        (bytesOf_length _) rfl hlt
    · exact absurd heq (by omega)
  | @partColon _ t v _ hh hres =>
    obtain ⟨hlt, rfl⟩ | ⟨heq, hfails⟩ | ⟨heq, -⟩ := hres
    · refine (ih _ ?_ (k := k + 1) ?_ (by omega) (by simp) ?_ rfl).congr
        (fun out => beforeWild_part_iff hh) ?_
      · rw [length_append, length_cons]
        omega
      · rw [length_append, bytesOf_length]
        omega
      · rw [length_append, length_cons] at hsize
        omega
      · rw [overAt_part_iff hh, show 7 - k = 7 - (k + 1) + 1 by omega]
        exact ⟨fun ⟨m, hm, ho⟩ => (Nat.succ_inj.1 hm) ▸ ho, fun ho => ⟨_, rfl, ho⟩⟩
    · refine .fails (fun out => not_beforeWild_part hh (by omega)) ?_ hfails
      rw [overAt_part_iff hh]
      rintro ⟨m, hm, -⟩
      omega
    · exact absurd heq (by omega)
  | ipv4 hn6 ht =>
    exact outcome_last ht.not_hasWildcard (fun b => seq_ipv4_iff ht) hl ht.2 rfl (by omega)
  | bad hne hseq hwild hres =>
    have hA : ∀ out, ¬ BeforeWild lb rest out := by
      rintro out (⟨b, hs, hle, -⟩ | ⟨l, rb, hw, -⟩)
      · have := hseq b hs
        omega
      · exact hwild hw.hasWildcard
    obtain ⟨ho, rfl⟩ | ⟨-, hfails⟩ := hres
    · exact absurd ho.1 (by omega)
    · exact .fails hA (fun ho => hwild ho.hasWildcard) hfails

end

/-! ## The grammar read from the left -/

section

variable {n m v : ℕ} {s t h l b b' rb right out : List ℕ}

theorem Groups.length_eq (hg : Groups n t b) : b.length = 2 * n := by
  induction hg with
  | zero => rfl
  | succ _ _ ih =>
    rw [length_append, bytesOf_length, ih]
    omega

theorem Ls32.length_eq (hl : Ls32 l b) : b.length = 4 := by
  cases hl with
  | parts _ _ => rfl
  | ipv4 ht => exact ht.2

theorem Groups.seq (hg : Groups n t b) (hl : Ls32 l b') : Seq (t ++ l) (b ++ b') := by
  induction hg with
  | zero =>
    cases hl with
    | parts hh hh' => exact .cons hh (.last hh')
    | ipv4 ht => exact .ipv4 ht
  | succ hh _ ih =>
    rw [append_assoc, append_assoc]
    exact .cons hh ih

/-- A sequence of more than one part ends with an `ls32`. -/
theorem Seq.groups (hs : Seq s b) : (∃ v, H16 s v ∧ b = bytesOf v) ∨
    ∃ n t tb l lb, Groups n t tb ∧ Ls32 l lb ∧ s = t ++ l ∧ b = tb ++ lb := by
  induction hs with
  | last hh => exact .inl ⟨_, hh, rfl⟩
  | ipv4 ht => exact .inr ⟨0, [], [], _, _, .zero, .ipv4 ht, rfl, rfl⟩
  | cons hh _ ih =>
    obtain ⟨v', hh', rfl⟩ | ⟨n, t, tb, l, lb, hg, hl, rfl, rfl⟩ := ih
    · exact .inr ⟨0, [], [], _, _, .zero, .parts hh hh', rfl, rfl⟩
    · exact .inr ⟨n + 1, _, _, l, lb, .succ hh hg, hl, by simp, by simp⟩

/-- The parts with their colons, seen from the last one. -/
theorem Groups.snoc (hg : Groups n t b) (hh : H16 h v) :
    Groups (n + 1) (t ++ h ++ [kColon]) (b ++ bytesOf v) := by
  induction hg with
  | zero => exact .succ hh .zero
  | succ hh' _ ih =>
    simp only [append_assoc, cons_append] at ih ⊢
    exact .succ hh' ih

theorem Groups.exists_snoc (hg : Groups (n + 1) t b) : ∃ t' b' h v, Groups n t' b' ∧ H16 h v ∧
    t = t' ++ h ++ [kColon] ∧ b = b' ++ bytesOf v := by
  induction n generalizing t b with
  | zero =>
    cases hg with
    | succ hh hg =>
    cases hg
    exact ⟨[], [], _, _, .zero, hh, rfl, rfl⟩
  | succ n ih =>
    cases hg with
    | succ hh hg =>
    obtain ⟨t', b', h', v', hg', hh', rfl, rfl⟩ := ih hg
    exact ⟨_, _, h', v', .succ hh hg', hh', by simp, by simp⟩

theorem Groups.wild (hg : Groups n t l) (hr : Right right rb) :
    Wild (t ++ kColon :: right) l rb := by
  induction hg with
  | zero => exact .here hr
  | succ hh _ ih =>
    rw [append_assoc]
    exact .cons hh ih

theorem Wild.groups (hw : Wild s l rb) :
    ∃ n t right, Groups n t l ∧ Right right rb ∧ s = t ++ kColon :: right := by
  induction hw with
  | here hr => exact ⟨0, [], _, .zero, hr, rfl⟩
  | cons hh _ ih =>
    obtain ⟨n, t, right, hg, hr, rfl⟩ := ih
    exact ⟨n + 1, _, right, .succ hh hg, hr, by simp⟩

/-- The wildcard at the start, and all that follows it. -/
theorem address_of_start (hr : Right right rb) (hle : 2 + rb.length ≤ 16) :
    Address (kColon :: kColon :: right) (gap [] rb) := by
  obtain ⟨rfl, rfl⟩ | hs := hr
  · exact .wildEnd .none
  obtain ⟨v, hh, rfl⟩ | ⟨n, t, tb, l, lb, hg, hl, rfl, rfl⟩ := hs.groups
  · exact .wildPart .none hh
  rw [length_append, hg.length_eq, hl.length_eq] at hle
  rcases (by omega : n ≤ 4 ∨ n = 5) with h4 | rfl
  · exact .wild h4 .none hg hl
  · exact .wild5 hg hl

/-- A wildcard after at least one part. -/
theorem address_of_wild (hg : Groups (m + 1) t l) (hr : Right right rb)
    (hle : l.length + 2 + rb.length ≤ 16) : Address (t ++ kColon :: right) (gap l rb) := by
  have hlen := hg.length_eq
  obtain ⟨t', b', h, v, hg', hh, rfl, rfl⟩ := hg.exists_snoc
  have hleft : ∀ k, m ≤ k → Left k (t' ++ h) (b' ++ bytesOf v) := fun k hk => .parts hk hg' hh
  rw [append_assoc (t' ++ h)]
  obtain ⟨rfl, rfl⟩ | hs := hr
  · exact .wildEnd (hleft 6 (by omega))
  obtain ⟨v', hh', rfl⟩ | ⟨n, t, tb, l, lb, hgr, hl, rfl, rfl⟩ := hs.groups
  · exact .wildPart (hleft 5 (by rw [bytesOf_length] at hle; omega)) hh'
  · rw [show (tb ++ lb).length = _ from length_append, hgr.length_eq, hl.length_eq] at hle
    exact .wild (by omega) (hleft (4 - n) (by omega)) hgr hl

theorem Left.wild (hp : Left n s l) (hr : Right right rb) (hne : s ≠ []) :
    Wild (s ++ kColon :: kColon :: right) l rb ∧ l.length ≤ 2 * n + 2 := by
  cases hp with
  | none => exact absurd rfl hne
  | parts hk hg hh =>
    have hw := (hg.snoc hh).wild hr
    rw [append_assoc] at hw
    refine ⟨hw, ?_⟩
    rw [length_append, hg.length_eq, bytesOf_length]
    omega

theorem Left.nil_of_nil (hp : Left n s l) (hs : s = []) : l = [] := by
  cases hp with
  | none => rfl
  | parts _ _ hh => exact absurd (append_eq_nil_iff.1 hs).2 hh.pos

/-- The alternatives with a wildcard, by what stands before it. -/
theorem address_wild (hp : Left n s l) (hr : Right right rb) (hle : 2 * n + 4 + rb.length ≤ 16) :
    (∃ right', s ++ kColon :: kColon :: right = kColon :: kColon :: right' ∧
      AfterWild [] [] 0 right' (gap l rb)) ∨ (∀ t, s ++ kColon :: kColon :: right ≠ kColon :: t) ∧
      BeforeWild [] (s ++ kColon :: kColon :: right) (gap l rb) := by
  by_cases hs : s = []
  · obtain rfl := hp.nil_of_nil hs
    subst hs
    refine .inl ⟨right, rfl, rb, hr.imp (fun h => ⟨rfl, h⟩) id, ?_, rfl⟩
    simp only [length_nil]
    omega
  obtain ⟨hw, hlen⟩ := hp.wild hr hs
  refine .inr ⟨fun t heq => ?_, .inr ⟨l, rb, hw, ?_, rfl⟩⟩
  · cases hp with
    | none => exact hs rfl
    | parts _ hg hh =>
      rw [heq] at hw
      exact absurd (wild_colon_iff.1 hw).1 (by simp [bytesOf])
  · rw [length_nil]
    omega

/-- **The grammar, as the parser reads it.** -/
theorem address_iff : Address s out ↔
    (∃ right, s = kColon :: kColon :: right ∧ AfterWild [] [] 0 right out) ∨
    (∀ t, s ≠ kColon :: t) ∧ BeforeWild [] s out := by
  constructor
  · intro ha
    cases ha with
    | full hg hl =>
      have hs := hg.seq hl
      refine .inr ⟨fun t heq => not_seq_colon (heq ▸ hs), .inl ⟨_, hs, ?_, rfl⟩⟩
      rw [length_append, hg.length_eq, hl.length_eq]
      rfl
    | wild5 hg hl =>
      refine .inl ⟨_, rfl, _, .inr (hg.seq hl), ?_, rfl⟩
      rw [length_append, hg.length_eq, hl.length_eq]
      decide
    | wild hn hp hg hl =>
      refine address_wild hp (.inr (hg.seq hl)) ?_
      rw [length_append, hg.length_eq, hl.length_eq]
      omega
    | wildPart hp hh => exact address_wild hp (.inr (.last hh)) (by rw [bytesOf_length])
    | wildEnd hp => exact address_wild hp (.inl ⟨rfl, rfl⟩) (by decide)
  · rintro (⟨right, rfl, b, hr, hle, rfl⟩ | ⟨hne, ⟨b, hs, hlen, rfl⟩ | ⟨l, rb, hw, hle, rfl⟩⟩)
    · rw [nil_append]
      exact address_of_start (hr.imp And.right id) (by omega)
    · obtain ⟨v, -, rfl⟩ | ⟨n, t, tb, l, lb, hg, hl, rfl, rfl⟩ := hs.groups
      · exact absurd hlen (by simp [bytesOf])
      · rw [length_append, hg.length_eq, hl.length_eq, length_nil] at hlen
        obtain rfl : n = 6 := by omega
        exact .full hg hl
    · obtain ⟨n, t, right, hg, hr, rfl⟩ := hw.groups
      cases n with
      | zero =>
        cases hg
        exact absurd rfl (hne right)
      | succ m =>
        rw [nil_append]
        exact address_of_wild hg hr (by omega)

theorem Octets.length_le (ho : Octets t b) : 2 * b.length ≤ t.length + 1 := by
  induction ho with
  | last ho =>
    have := length_pos_of_ne_nil ho.pos
    simp only [length_cons, length_nil]
    omega
  | cons ho _ ih =>
    have := length_pos_of_ne_nil ho.pos
    simp only [length_cons, length_append]
    omega

theorem Seq.length_le (hs : Seq s b) : b.length ≤ 2 * s.length := by
  induction hs with
  | last hh =>
    have := length_pos_of_ne_nil hh.pos
    rw [bytesOf_length]
    omega
  | ipv4 ht =>
    have := ht.1.length_le
    omega
  | cons hh _ ih =>
    simp only [length_cons, length_append, bytesOf_length]
    omega

theorem Address.two_le (ha : Address s out) : 2 ≤ s.length := by
  obtain ⟨right, rfl, -⟩ | ⟨hne, ⟨b, hs, hlen, -⟩ | ⟨l, rb, hw, -⟩⟩ := address_iff.1 ha
  · simp
  · have := hs.length_le
    rw [length_nil] at hlen
    omega
  · cases hw with
    | here _ => exact absurd rfl (hne _)
    | cons hh _ =>
      have := length_pos_of_ne_nil hh.pos
      simp only [length_append, length_cons]
      omega

theorem OverAt.two_le (ho : OverAt 7 s) : 2 ≤ s.length := by
  obtain ⟨t, b, right, hg, rfl, -⟩ := ho
  cases hg with
  | succ hh _ =>
  simp only [length_append, length_cons]
  omega

end

theorem parseIPv6Address_outcome (host : List ℕ) :
    Outcome (Address host) (OverAt 7 host) (parseIPv6Address host) := by
  unfold parseIPv6Address
  split
  · next c c' rest =>
    by_cases hc : c = kColon
    · subst hc
      have hover : ¬ OverAt 7 (kColon :: c' :: rest) := fun ho =>
        absurd (overAt_colon_iff.1 ho).1 (by decide)
      by_cases hc' : c' = kColon
      · subst hc'
        have hright : Outcome (AfterWild [] [] 0 rest) (0 = 7 ∧ Over rest)
            (partsLoop (kColon :: kColon :: rest).length rest rest 0 true
              ⟨0, 1, replicate 16 0⟩) :=
          partsLoop_right (w := 0) rfl rfl (.inl (by decide)) (by simp only [length_cons]; omega)
        refine hright.congr (fun out => ?_)
          (iff_of_false hover (fun ho => absurd ho.1 (by decide)))
        rw [address_iff]
        constructor
        · rintro (⟨right, heq, ha⟩ | ⟨hne, -⟩)
          · obtain rfl := (cons.inj (cons.inj heq).2).2
            exact ha
          · exact absurd rfl (hne _)
        · exact fun ha => .inl ⟨rest, rfl, ha⟩
      · rw [if_neg hc']
        refine .fails (fun out ha => ?_) hover (fails_error _ _)
        obtain ⟨right, heq, -⟩ | ⟨hne, -⟩ := address_iff.1 ha
        · exact hc' (cons.inj (cons.inj heq).2).1
        · exact hne _ rfl
    · have hstart : ∀ t, c :: c' :: rest ≠ kColon :: t := fun t heq => hc (cons.inj heq).1
      rw [if_neg hc]
      have hleft : Outcome (BeforeWild [] (c :: c' :: rest)) (OverAt 7 (c :: c' :: rest))
          (partsLoop (c :: c' :: rest).length (c :: c' :: rest) (c :: c' :: rest) 0 true
            ⟨-1, 0, replicate 16 0⟩) :=
        partsLoop_left rfl (Nat.zero_le 7) (fun _ => ⟨by simp, hstart⟩) le_rfl
      refine hleft.congr (fun out => ?_) Iff.rfl
      rw [address_iff]
      constructor
      · rintro (⟨right, heq, -⟩ | ⟨-, hb⟩)
        · exact absurd heq (hstart _)
        · exact hb
      · exact fun hb => .inr ⟨hstart, hb⟩
  · next hshort =>
    have hlt : ¬ 2 ≤ host.length := by
      rcases host with _ | ⟨c, _ | ⟨c', rest⟩⟩
      · simp
      · simp
      · exact absurd rfl (hshort c c' rest)
    exact .fails (fun out ha => hlt ha.two_le) (fun ho => hlt ho.two_le) (fails_error _ _)

/-- **The parser returns the bytes of an address and throws a `FormatException` for any other
string**, exactly if the string does not start with seven parts, a wildcard and a part. -/
theorem parseIPv6Address_iff (host : List ℕ) :
    ((∀ bytes, parseIPv6Address host = .ok bytes ↔ Address host bytes) ∧
      ((¬ ∃ bytes, Address host bytes) → Fails (parseIPv6Address host))) ↔ ¬ OverAt 7 host := by
  have hout := parseIPv6Address_outcome host
  generalize parseIPv6Address host = r at hout
  cases hout with
  | ok hb hA ho =>
    refine iff_of_true ⟨fun bytes => ⟨fun heq => ?_, fun ha => ?_⟩, fun hno => ?_⟩ ho
    · exact (Except.ok.inj heq) ▸ hb
    · rw [hA bytes ha]
    · exact absurd ⟨_, hb⟩ hno
  | fails hA ho hr =>
    refine iff_of_true ⟨fun bytes => ⟨fun heq => ?_, fun ha => absurd ha (hA bytes)⟩,
      fun _ => hr⟩ ho
    obtain ⟨msg, pos, rfl⟩ := hr
    exact absurd heq (by simp)
  | range hA ho =>
    refine iff_of_false (fun h => ?_) (not_not_intro ho)
    obtain ⟨msg, pos, heq⟩ := h.2 fun ⟨b, hb⟩ => hA b hb
    exact absurd heq (by simp)

/-- `1:2:3:4:5:6:7::8` — the part after the wildcard is the ninth. -/
theorem parseIPv6Address_ninthPart : let host := "1:2:3:4:5:6:7::8".toList.map Char.toNat
    parseIPv6Address host = .error (.range 16) ∧ ¬ ∃ bytes, Address host bytes := by
  intro host
  have hparse : parseIPv6Address host = .error (.range 16) := by decide
  have hout := parseIPv6Address_outcome host
  rw [hparse] at hout
  refine ⟨hparse, ?_⟩
  cases hout with
  | fails _ _ hr =>
    obtain ⟨msg, pos, heq⟩ := hr
    exact absurd heq (by simp)
  | range hA _ => exact fun ⟨bytes, ha⟩ => hA bytes ha

end Ipv6
