import ContentSpaces.Number
import Mathlib.Algebra.Ring.Int.Defs
import Mathlib.Algebra.Ring.Nat

/-!
# Reading integers

An integer of 64 bits, with or without sign, is read back from its text. The digits are packed into
a word that they all fit into, so none of them is left over.
-/

namespace ContentSpaces

def Number.IsWord : Number → Prop
  | .integer n => -2 ^ 63 ≤ n ∧ n < 2 ^ 64
  | .double _ => False

instance : DecidablePred Number.IsWord
  | .integer n => inferInstanceAs (Decidable (-2 ^ 63 ≤ n ∧ n < 2 ^ 64))
  | .double _ => .isFalse id

namespace Numeral

theorem digits_eq {cs : List Char} (h : ∀ c ∈ cs, c.isDigit = true) :
    digits cs = (cs.map fun c => c.toNat - '0'.toNat, []) := by
  induction cs with
  | nil => rfl
  | cons c cs ih =>
    obtain ⟨hc, hcs⟩ := List.forall_mem_cons.mp h
    simp only [digits, digit?, hc, if_true, ih hcs, List.map_cons]

theorem le_foldl_digits (word : Nat) (ds : List Nat) :
    word ≤ ds.foldl (fun word d => word * 10 + d) word := by
  induction ds generalizing word with
  | nil => exact Nat.le_refl _
  | cons d ds ih =>
    calc
      word ≤ word * 10 + d := by omega
      _ ≤ (d :: ds).foldl (fun word d => word * 10 + d) word := ih _

/-- Digits that fit are all packed. -/
theorem pack_eq {bound word : Nat} {ds : List Nat}
    (h : ds.foldl (fun word d => word * 10 + d) word < bound) :
    pack bound word ds = (ds.foldl (fun word d => word * 10 + d) word, []) := by
  induction ds generalizing word with
  | nil => rfl
  | cons d ds ih =>
    have hfits : word * 10 + d < bound := Nat.lt_of_le_of_lt (le_foldl_digits _ ds) h
    rw [pack, if_pos hfits]
    exact ih h

theorem foldl_digits_toDigits (n : Nat) :
    ((Nat.toDigits 10 n).map fun c => c.toNat - '0'.toNat).foldl (fun word d => word * 10 + d) 0 =
      n := by
  rw [List.foldl_map]
  calc
    (Nat.toDigits 10 n).foldl (fun word c => word * 10 + (c.toNat - '0'.toNat)) 0
      = Nat.ofDigitChars 10 (Nat.toDigits 10 n) 0 := by
        rw [Nat.ofDigitChars_eq_foldl]
        congr
        funext word c
        rw [Nat.mul_comm]
    _ = n := Nat.ofDigitChars_ten_toDigits

/-- A number above zero starts with another digit. -/
theorem head?_toDigits_ne_zero {n : Nat} (hn : 0 < n) :
    (Nat.toDigits 10 n).head? ≠ some '0' := by
  induction n using Nat.strongRecOn with
  | ind n ih =>
    by_cases hsmall : n < 10
    · have hall : ∀ d : Fin 10, 0 < d.val → [d.val.digitChar].head? ≠ some '0' := by decide
      rw [Nat.toDigits_of_lt_base hsmall]
      exact hall ⟨n, hsmall⟩ hn
    · have hfirst := ih (n / 10) (by omega) (by omega)
      rw [Nat.toDigits_of_base_le (by decide) (Nat.le_of_not_lt hsmall)]
      cases hdigits : Nat.toDigits 10 (n / 10) with
      | nil => exact absurd hdigits Nat.toDigits_ne_nil
      | cons c cs =>
        rw [hdigits] at hfirst
        exact hfirst

theorem isDigit_toDigits (n : Nat) : ∀ c ∈ Nat.toDigits 10 n, c.isDigit = true :=
  fun _ => Nat.isDigit_of_mem_toDigits (by decide) (by decide)

theorem wholePart?_toDigits (n : Nat) : wholePart? (Nat.toDigits 10 n) =
    some ((Nat.toDigits 10 n).map fun c => c.toNat - '0'.toNat, []) := by
  unfold wholePart?
  rw [digits_eq (isDigit_toDigits n)]
  by_cases hn : n = 0
  · subst hn
    rfl
  · have hhead := head?_toDigits_ne_zero (Nat.pos_of_ne_zero hn)
    cases hdigits : Nat.toDigits 10 n with
    | nil => exact absurd hdigits Nat.toDigits_ne_nil
    | cons c cs =>
      rw [hdigits] at hhead
      have hc : c.isDigit = true := isDigit_toDigits n c (hdigits ▸ List.mem_cons_self)
      have hpositive : c.toNat - '0'.toNat ≠ 0 := by
        intro hzero
        have hle : '0'.toNat ≤ c.toNat := (Char.isDigit_iff_toNat.mp hc).1
        have hcode : c.toNat = '0'.toNat := by omega
        exact hhead (congrArg some (Char.toNat_inj.mp hcode))
      rw [List.map_cons]
      generalize c.toNat - '0'.toNat = d at hpositive
      cases d with
      | zero => exact absurd rfl hpositive
      | succ d => rfl

def ofWhole (negative : Bool) (n : Nat) : Numeral :=
  ⟨negative, (Nat.toDigits 10 n).map fun c => c.toNat - '0'.toNat, none, none⟩

theorem ofChars?_toDigits (n : Nat) :
    ofChars? (Nat.toDigits 10 n) = some (ofWhole false n) := by
  have hwhole := wholePart?_toDigits n
  have hunsigned : ∀ cs, Nat.toDigits 10 n ≠ '-' :: cs := by
    intro cs hcs
    cases isDigit_toDigits n '-' (hcs ▸ List.mem_cons_self)
  unfold ofWhole
  generalize Nat.toDigits 10 n = cs at *
  unfold ofChars?
  split
  rename_i negative cs' hsign
  split at hsign
  · exact absurd rfl (hunsigned _)
  · cases hsign
    simp [hwhole, fraction?, exponent?]

theorem ofChars?_negative (n : Nat) :
    ofChars? ('-' :: Nat.toDigits 10 n) = some (ofWhole true n) := by
  simp [ofChars?, wholePart?_toDigits, fraction?, exponent?, ofWhole]

theorem value?_ofWhole {negative : Bool} {n : Nat} (hn : n < 2 ^ 64) :
    (ofWhole negative n).value? =
      if !negative then some (.integer n)
      else if n = 0 then some (.double (.zero true))
      else if n ≤ 2 ^ 63 then some (.integer (-(n : Int)))
      else some (.double (.ofNat true n)) := by
  have hpacked : pack wordBound 0 (ofWhole negative n).whole = (n, []) := by
    have hvalue := foldl_digits_toDigits n
    have hfits : ((ofWhole negative n).whole.foldl (fun word d => word * 10 + d) 0) <
        wordBound := hvalue.symm ▸ hn
    rw [pack_eq hfits]
    exact congrArg (·, []) hvalue
  unfold value?
  rw [hpacked]
  rfl

end Numeral

namespace Number

variable {n : Number}

/-- A word is read from its text. -/
theorem IsWord.value?_text (h : n.IsWord) :
    ∃ m, Numeral.ofChars? n.text = some m ∧ m.value? = some n := by
  cases n with
  | double x => exact h.elim
  | integer i =>
    obtain ⟨hlow, hhigh⟩ := h
    cases i with
    | ofNat k =>
      have hk : (k : Int) < 2 ^ 64 := hhigh
      refine ⟨_, Numeral.ofChars?_toDigits k, ?_⟩
      rw [Numeral.value?_ofWhole (by omega)]
      rfl
    | negSucc k =>
      refine ⟨_, Numeral.ofChars?_negative (k + 1), ?_⟩
      have hsmall : k + 1 ≤ 2 ^ 63 := by omega
      rw [Numeral.value?_ofWhole (by omega), if_neg (by decide), if_neg (Nat.succ_ne_zero k),
        if_pos hsmall]
      rfl

/-- The text of a word is a digit or a minus sign, and digits after that. -/
theorem IsWord.text_eq_cons (h : n.IsWord) : ∃ c cs, n.text = c :: cs ∧
    (c = '-' ∨ c.isDigit = true) ∧ ∀ d ∈ cs, d.isDigit = true := by
  cases n with
  | double x => exact h.elim
  | integer i =>
    cases i with
    | ofNat k =>
      have hdigits := Numeral.isDigit_toDigits k
      cases htext : Nat.toDigits 10 k with
      | nil => exact absurd htext Nat.toDigits_ne_nil
      | cons c cs =>
        rw [htext] at hdigits
        obtain ⟨hc, hcs⟩ := List.forall_mem_cons.mp hdigits
        exact ⟨c, cs, htext, .inr hc, hcs⟩
    | negSucc k => exact ⟨'-', _, rfl, .inl rfl, Numeral.isDigit_toDigits (k + 1)⟩

end Number

end ContentSpaces
