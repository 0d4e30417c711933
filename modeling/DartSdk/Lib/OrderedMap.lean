import Mathlib.Tactic

/-!
# Lib/OrderedMap — finite maps that remember the order of insertion

A list of entries, no two with equivalent keys (`Distinct`).  Storing an entry whose key is there
overwrites it **in place**; any other entry is **appended**.  So the list holds the keys in the
order in which they were first stored since they were last removed.
-/

namespace OrderedMap

variable {K α : Type*} (key : α → K) (eqv : K → K → Bool)

/-- The first entry with an equivalent key. -/
def lookup (k : K) (l : List α) : Option α := l.find? fun a => eqv (key a) k

/-- Stores `a`; `overwrite old a` is what is left under a key that is there. -/
def put (overwrite : α → α → α) (a : α) : List α → List α
  | [] => [a]
  | b :: l => if eqv (key b) (key a) then overwrite b a :: l else b :: put overwrite a l

/-- No two entries have equivalent keys. -/
def Distinct (l : List α) : Prop := l.Pairwise fun a b => ¬ eqv (key a) (key b)

variable {key eqv} {k : K} {a b : α} {l₁ l₂ : List α}

variable (heq : Equivalence fun x y => eqv x y = true)
include heq

theorem not_eqv_of_mid (hd : Distinct key eqv (l₁ ++ a :: l₂)) (ha : eqv (key a) k) :
    ∀ b ∈ l₁, ¬ eqv (key b) k := by
  intro b hb hbk
  have hba : ¬ eqv (key b) (key a) :=
    (List.pairwise_append.mp hd).2.2 b hb a List.mem_cons_self
  exact hba (heq.trans hbk (heq.symm ha))

theorem lookup_mid (hd : Distinct key eqv (l₁ ++ a :: l₂)) (ha : eqv (key a) k) :
    lookup key eqv k (l₁ ++ a :: l₂) = some a := by
  have hbefore := not_eqv_of_mid heq hd ha
  rw [lookup, List.find?_append, List.find?_eq_none.mpr hbefore]
  simp [ha]

end OrderedMap
