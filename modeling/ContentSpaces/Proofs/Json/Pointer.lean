import ContentSpaces.Proofs.Json.Order
import ContentSpaces.Proofs.Number

/-!
# Where pointers lead

The canonical decimal text of an index is the only token that leads to an element, so a place in a
value has one name. Putting a value into a place is seen there and below; it is not seen at places
that lie apart.
-/

namespace ContentSpaces

namespace Entries

variable {κ ν : Type} [DecidableEq κ] [Ord κ]

theorem insert_insert (k : κ) (v w : ν) (es : List (κ × ν)) :
    insert k w (insert k v es) = insert k w es := by
  induction es with
  | nil => simp [insert]
  | cons e rest ih =>
    obtain ⟨k', v'⟩ := e
    by_cases hk : k = k'
    · simp [insert, hk]
    · by_cases hlt : compare k k' = .lt
      · simp [insert, hk, hlt]
      · simp [insert, hk, hlt, ih]

variable [Std.TransOrd κ] [Std.LawfulEqOrd κ]

theorem Ascending.insert_eq_self {es : List (κ × ν)} (h : Ascending es) {k : κ} {v : ν}
    (hv : get? k es = some v) : Entries.insert k v es = es := by
  refine eq_of_get?_eq (h.insert k v) h fun j => ?_
  by_cases hj : j = k
  · rw [hj, get?_insert_self, hv]
  · exact get?_insert_of_ne hj v es

end Entries

namespace Json

namespace Pointer

variable {token : String} {cs : List Char} {i n : Nat}

def decimalValue (cs : List Char) : Nat :=
  cs.foldl (fun n c => n * 10 + (c.toNat - '0'.toNat)) 0

theorem decimal?_eq_some_iff : decimal? cs = some n ↔
    cs ≠ [] ∧ (∀ c ∈ cs, c.isDigit = true) ∧ decimalValue cs = n ∧ n < 2 ^ 64 := by
  have hdigits : (cs.isEmpty || !cs.all Char.isDigit) = true ↔
      ¬ (cs ≠ [] ∧ ∀ c ∈ cs, c.isDigit = true) := by
    simp [or_iff_not_imp_left]
  unfold decimal?
  split
  · rename_i hother
    exact iff_of_false nofun fun h => hdigits.mp hother ⟨h.1, h.2.1⟩
  · rename_i hall
    rw [hdigits, not_not] at hall
    rw [← and_assoc, and_iff_right hall]
    show (if decimalValue cs < 2 ^ 64 then some (decimalValue cs) else none) = some n ↔ _
    split
    · simp only [Option.some.injEq]
      omega
    · simp only [reduceCtorEq, false_iff]
      omega

theorem decimalValue_toDigits (n : Nat) : decimalValue (Nat.toDigits 10 n) = n := by
  have h := Numeral.foldl_digits_toDigits n
  rwa [List.foldl_map] at h

theorem decimal?_toDigits (hn : n < 2 ^ 64) : decimal? (Nat.toDigits 10 n) = some n :=
  decimal?_eq_some_iff.mpr
    ⟨Nat.toDigits_ne_nil, Numeral.isDigit_toDigits n, decimalValue_toDigits n, hn⟩

theorem digitChar_of_isDigit {c : Char} (h : c.isDigit = true) :
    c.toNat - '0'.toNat < 10 ∧ (c.toNat - '0'.toNat).digitChar = c := by
  obtain ⟨hlow, hhigh⟩ := Char.isDigit_iff_toNat.mp h
  have hzero : '0'.toNat = 48 := rfl
  have hnine : '9'.toNat = 57 := rfl
  have hsmall : c.toNat - '0'.toNat < 10 := by omega
  refine ⟨hsmall, Char.toNat_inj.mp ?_⟩
  rw [Nat.toNat_digitChar_of_lt_ten hsmall]
  omega

/-- Digits after a number that is not zero are the digits of what they make of it. -/
theorem toDigits_foldl (hcs : ∀ c ∈ cs, c.isDigit = true) (hn : 0 < n) :
    Nat.toDigits 10 (cs.foldl (fun n c => n * 10 + (c.toNat - '0'.toNat)) n) =
      Nat.toDigits 10 n ++ cs := by
  induction cs generalizing n with
  | nil => simp
  | cons c cs ih =>
    obtain ⟨hc, hrest⟩ := List.forall_mem_cons.mp hcs
    obtain ⟨hsmall, hchar⟩ := digitChar_of_isDigit hc
    have hlonger : Nat.toDigits 10 n ++ [c] = Nat.toDigits 10 (n * 10 + (c.toNat - '0'.toNat)) := by
      have happend := Nat.toDigits_append_toDigits (b := 10) (by decide) hn hsmall
      rwa [Nat.toDigits_of_lt_base hsmall, hchar, Nat.mul_comm] at happend
    calc
      _ = Nat.toDigits 10 (n * 10 + (c.toNat - '0'.toNat)) ++ cs := ih hrest (by omega)
      _ = Nat.toDigits 10 n ++ c :: cs := by rw [← hlonger, List.append_assoc]; rfl

theorem eq_toDigits_of_decimal? (h : decimal? cs = some n) (hhead : cs.head? ≠ some '0') :
    cs = Nat.toDigits 10 n := by
  obtain ⟨hne, hdigits, hvalue, -⟩ := decimal?_eq_some_iff.mp h
  cases cs with
  | nil => exact absurd rfl hne
  | cons c cs =>
    obtain ⟨hc, hcs⟩ := List.forall_mem_cons.mp hdigits
    obtain ⟨hsmall, hchar⟩ := digitChar_of_isDigit hc
    have hpos : 0 < c.toNat - '0'.toNat := by
      refine Nat.pos_of_ne_zero fun hzero => hhead ?_
      rw [hzero] at hchar
      exact congrArg some hchar.symm
    have hfirst : decimalValue (c :: cs) =
        cs.foldl (fun n c => n * 10 + (c.toNat - '0'.toNat)) (c.toNat - '0'.toNat) := by
      simp [decimalValue]
    rw [← hvalue, hfirst, toDigits_foldl hcs hpos, Nat.toDigits_of_lt_base hsmall, hchar]
    rfl

/-- Elements have one token each. -/
theorem index?_eq_some_iff : index? token = some i ↔ token = toString i ∧ i < 2 ^ 64 := by
  have htext : token = toString i ↔ token.toList = Nat.toDigits 10 i := by
    rw [← String.toList_inj, Nat.toString_eq_repr, Nat.toList_repr]
  rw [htext]
  constructor
  · intro h
    unfold index? at h
    split at h
    · rename_i hzero
      cases h
      exact ⟨hzero, by decide⟩
    · cases h
    · rename_i cs hsingle hlong
      refine ⟨eq_toDigits_of_decimal? h fun hhead => ?_, (decimal?_eq_some_iff.mp h).2.2.2⟩
      obtain ⟨rest, hrest⟩ := List.head?_eq_some_iff.mp hhead
      exact hlong rest hrest
  · rintro ⟨hdigits, hi⟩
    by_cases hzero : i = 0
    · subst hzero
      simp [index?, hdigits]
    · have hhead := Numeral.head?_toDigits_ne_zero (Nat.pos_of_ne_zero hzero)
      have hdecimal := decimal?_toDigits hi
      unfold index?
      rw [hdigits]
      split
      · rename_i heq
        rw [heq] at hhead
        exact absurd rfl hhead
      · rename_i heq
        rw [heq] at hhead
        exact absurd rfl hhead
      · exact hdecimal

theorem index?_injective {other : String} (h : index? token = some i)
    (hother : index? other = some i) : token = other :=
  (index?_eq_some_iff.mp h).1.trans (index?_eq_some_iff.mp hother).1.symm

theorem looseIndex?_toString (hi : i < 2 ^ 64) : looseIndex? (toString i) = some i := by
  have hdecimal := decimal?_toDigits hi
  have hunsigned : ∀ cs, Nat.toDigits 10 i ≠ '+' :: cs := by
    intro cs hcs
    have hplus := Numeral.isDigit_toDigits i '+' (hcs ▸ List.mem_cons_self)
    simp at hplus
  unfold looseIndex?
  rw [Nat.toString_eq_repr, Nat.toList_repr]
  split
  · exact absurd ‹_› (hunsigned _)
  · exact hdecimal

theorem looseIndex?_of_index? (h : index? token = some i) : looseIndex? token = some i := by
  obtain ⟨rfl, hi⟩ := index?_eq_some_iff.mp h
  exact looseIndex?_toString hi

theorem lt_of_looseIndex? (h : looseIndex? token = some i) : i < 2 ^ 64 := by
  unfold looseIndex? at h
  split at h
  · exact (decimal?_eq_some_iff.mp h).2.2.2
  · exact (decimal?_eq_some_iff.mp h).2.2.2

theorem looseIndex?_dash : looseIndex? "-" = none := by decide

theorem split_ne_nil (cs : List Char) : split cs ≠ [] := by
  fun_cases split cs <;> simp

theorem tokens?_ne_nil {path : String} (hpath : path ≠ "") : tokens? path ≠ some [] := by
  unfold tokens?
  split
  · rename_i hempty
    exact absurd (String.toList_eq_nil_iff.mp hempty) hpath
  · simp [split_ne_nil]
  · simp

end Pointer

variable {v v' w c : Json} {token : String} {p q : List String}

theorem get?_append (v : Json) (p q : List String) :
    v.get? (p ++ q) = (v.get? p).bind fun w => w.get? q := by
  induction p generalizing v with
  | nil => rfl
  | cons token p ih =>
    rw [List.cons_append, get?, get?]
    cases v.child? token with
    | none => rfl
    | some c => exact ih c

theorem get?_concat (v : Json) (p : List String) (token : String) :
    v.get? (p ++ [token]) = (v.get? p).bind fun w => w.child? token := by
  rw [get?_append]
  congr 1
  funext w
  rw [get?]
  cases w.child? token <;> rfl

section Children

theorem child?_setChild_self (h : v.child? token = some c) (w : Json) :
    (v.setChild token w).child? token = some w := by
  cases v with
  | object fs => exact Entries.get?_insert_self token w fs
  | array xs =>
    obtain ⟨i, hi, hc⟩ := Option.bind_eq_some_iff.mp h
    have hlt : i < xs.length := (List.getElem?_eq_some_iff.mp hc).1
    simp [setChild, child?, hi, hlt]
  | _ => cases h

theorem child?_setChild_of_ne {other : String} (h : other ≠ token) (v w : Json) :
    (v.setChild token w).child? other = v.child? other := by
  cases v with
  | object fs => exact Entries.get?_insert_of_ne h w fs
  | array xs =>
    simp only [setChild, child?]
    cases hi : Pointer.index? token with
    | none => rfl
    | some i =>
      cases hj : Pointer.index? other with
      | none => rfl
      | some j =>
        have hne : i ≠ j := fun heq => h (Pointer.index?_injective hj (heq ▸ hi))
        simp [hne]
  | _ => rfl

theorem setChild_setChild (v : Json) (token : String) (w w' : Json) :
    (v.setChild token w).setChild token w' = v.setChild token w' := by
  cases v with
  | object fs => exact congrArg Json.object (Entries.insert_insert token w w' fs)
  | array xs =>
    simp only [setChild]
    cases Pointer.index? token <;> simp
  | _ => rfl

theorem Ordered.setChild_eq_self (hv : v.Ordered) (h : v.child? token = some c) :
    v.setChild token c = v := by
  cases v with
  | object fs => exact congrArg Json.object ((ordered_object_iff.mp hv).1.insert_eq_self h)
  | array xs =>
    obtain ⟨i, hi, hc⟩ := Option.bind_eq_some_iff.mp h
    obtain ⟨hlt, rfl⟩ := List.getElem?_eq_some_iff.mp hc
    simp [Json.setChild, hi]
  | _ => cases h

end Children

def setAt (v : Json) : List String → Json → Json
  | [], w => w
  | token :: tokens, w => (v.child? token).elim v fun c => v.setChild token (c.setAt tokens w)

theorem setAt_of_child? (h : v.child? token = some c) (p : List String) (w : Json) :
    v.setAt (token :: p) w = v.setChild token (c.setAt p w) := by
  rw [setAt, h]
  rfl

theorem get?_setAt_self (h : v.get? p = some c) (w : Json) : (v.setAt p w).get? p = some w := by
  induction p generalizing v with
  | nil => rfl
  | cons token p ih =>
    obtain ⟨d, hd, hc⟩ := Option.bind_eq_some_iff.mp h
    rw [setAt_of_child? hd, get?, child?_setChild_self hd]
    exact ih hc

theorem get?_setAt_of_apart (hpq : ¬ p <+: q) (hqp : ¬ q <+: p) (v w : Json) :
    (v.setAt p w).get? q = v.get? q := by
  induction p generalizing v q with
  | nil => exact absurd List.nil_prefix hpq
  | cons token p ih =>
    cases q with
    | nil => exact absurd List.nil_prefix hqp
    | cons other q =>
      cases hc : v.child? token with
      | none => simp [setAt, hc]
      | some c =>
        rw [setAt_of_child? hc, get?, get?]
        -- The two ways part at this token, or they share it and part further down.
        by_cases hsame : other = token
        · subst hsame
          have hrest : (c.setAt p w).get? q = c.get? q :=
            ih (fun h => hpq (List.cons_prefix_cons.mpr ⟨rfl, h⟩))
              (fun h => hqp (List.cons_prefix_cons.mpr ⟨rfl, h⟩)) c
          simp [child?_setChild_self hc, hc, hrest]
        · rw [child?_setChild_of_ne hsame]

theorem setAt_setAt (v : Json) (p : List String) (w w' : Json) :
    (v.setAt p w).setAt p w' = v.setAt p w' := by
  induction p generalizing v with
  | nil => rfl
  | cons token p ih =>
    cases hc : v.child? token with
    | none => simp [setAt, hc]
    | some c =>
      rw [setAt_of_child? hc, setAt_of_child? (child?_setChild_self hc _), ih, setChild_setChild,
        setAt_of_child? hc]

theorem Ordered.setAt_eq_self (hv : v.Ordered) (h : v.get? p = some w) : v.setAt p w = v := by
  induction p generalizing v with
  | nil => exact (Option.some.inj h).symm
  | cons token p ih =>
    obtain ⟨c, hc, hw⟩ := Option.bind_eq_some_iff.mp h
    rw [setAt_of_child? hc, ih (hv.child? hc) hw, hv.setChild_eq_self hc]

theorem Ordered.setAt_setAt_eq_self (hv : v.Ordered) (h : v.get? p = some w) (w' : Json) :
    (v.setAt p w').setAt p w = v := by
  rw [setAt_setAt, hv.setAt_eq_self h]

theorem editAt_eq_ok_iff {ε α : Type} {missing : ε} {edit : Json → Except ε (α × Json)} {a : α} :
    v.editAt missing edit p = .ok (a, v') ↔
      ∃ w w', v.get? p = some w ∧ edit w = .ok (a, w') ∧ v' = v.setAt p w' := by
  induction p generalizing v v' with
  | nil =>
    constructor
    · intro h
      exact ⟨v, v', rfl, h, rfl⟩
    · rintro ⟨w, w', hw, hedit, rfl⟩
      cases hw
      exact hedit
  | cons token p ih =>
    cases hc : v.child? token with
    | none => simp [editAt, get?, hc]
    | some c =>
      simp only [editAt, get?, hc, Option.bind_some, setAt_of_child? hc]
      rw [except_bind_eq_ok]
      constructor
      · rintro ⟨⟨b, c'⟩, hinner, h⟩
        cases h
        obtain ⟨w, w', hw, hedit, rfl⟩ := ih.mp hinner
        exact ⟨w, w', hw, hedit, rfl⟩
      · rintro ⟨w, w', hw, hedit, rfl⟩
        exact ⟨(a, c.setAt p w'), ih.mpr ⟨w, w', hw, hedit, rfl⟩, rfl⟩

end Json

end ContentSpaces
