import ContentSpaces.Json.Token
import ContentSpaces.Proofs.Number
import ContentSpaces.Proofs.Number.Rounding

/-!
# Reading the text of a number

The text of a number is a numeral. That of an integer has neither point nor exponent; that of a double
has one of them, and denotes a real that rounds to the double. So the text determines the number.
-/

namespace ContentSpaces

namespace Numeral

variable {cs w f rest : List Char} {c : Char}

def digitsOf (cs : List Char) : List Nat := cs.map fun c => c.toNat - '0'.toNat

def decimal (ds : List Nat) : Nat := ds.foldl (fun n d => n * 10 + d) 0

def power (n : Numeral) : Int :=
  match n.exponent with
  | none => 0
  | some (true, ds) => -decimal ds
  | some (false, ds) => decimal ds

/-- The real that a numeral denotes, without its sign. -/
def magnitude (n : Numeral) : ℚ :=
  decimal (n.whole ++ n.fraction.getD []) * 10 ^ (n.power - (n.fraction.getD []).length)

def IsDecimal (n : Numeral) : Prop := n.fraction.isSome ∨ n.exponent.isSome

theorem decimal_digitsOf (cs : List Char) : decimal (digitsOf cs) = Nat.ofDigitChars 10 cs 0 := by
  unfold decimal digitsOf
  rw [List.foldl_map, Nat.ofDigitChars_eq_foldl]
  congr
  funext n c
  rw [Nat.mul_comm]

def EndsDigits (rest : List Char) : Prop := ∀ c, rest.head? = some c → c.isDigit = false

theorem EndsDigits.nil : EndsDigits [] := nofun

theorem EndsDigits.cons (hc : c.isDigit = false) (rest : List Char) : EndsDigits (c :: rest) := by
  intro d hd
  cases hd
  exact hc

theorem digits_append (hcs : ∀ c ∈ cs, c.isDigit = true) (hrest : EndsDigits rest) :
    digits (cs ++ rest) = (digitsOf cs, rest) := by
  induction cs with
  | nil =>
    cases rest with
    | nil => rfl
    | cons c rest =>
      rw [List.nil_append, digits, digit?, hrest c rfl]
      rfl
  | cons c cs ih =>
    obtain ⟨hc, hcs⟩ := List.forall_mem_cons.mp hcs
    simp only [List.cons_append, digits, digit?, hc, if_true, ih hcs]
    rfl

/-- Digits that do not start with a needless zero are a whole part. -/
theorem wholePart?_append (hw : ∀ c ∈ w, c.isDigit = true) (hne : w ≠ [])
    (hzero : w.head? = some '0' → w.length = 1) (hrest : EndsDigits rest) :
    wholePart? (w ++ rest) = some (digitsOf w, rest) := by
  unfold wholePart?
  rw [digits_append hw hrest]
  match w, hne with
  | [c], _ =>
    rw [digitsOf, List.map_singleton]
    generalize c.toNat - '0'.toNat = d
    cases d <;> rfl
  | c :: c' :: w, _ =>
    have hfirst : c.toNat - '0'.toNat ≠ 0 := by
      intro h
      have hle : '0'.toNat ≤ c.toNat := (Char.isDigit_iff_toNat.mp (hw c List.mem_cons_self)).1
      have hc : c = '0' := Char.toNat_inj.mp (by omega)
      have hlength := hzero (congrArg some hc)
      simp at hlength
    rw [digitsOf, List.map_cons, List.map_cons]
    generalize c.toNat - '0'.toNat = d at hfirst
    cases d with
    | zero => exact absurd rfl hfirst
    | succ d => rfl

theorem fraction?_append (hf : ∀ c ∈ f, c.isDigit = true) (hne : f ≠ []) (hrest : EndsDigits rest) :
    fraction? ('.' :: (f ++ rest)) = some (some (digitsOf f), rest) := by
  rw [fraction?, digits_append hf hrest]
  cases f with
  | nil => exact absurd rfl hne
  | cons c f => rfl

theorem exponent?_toDigits (negative : Bool) (n : Nat) :
    exponent? ('e' :: (if negative then '-' else '+') :: Nat.toDigits 10 n) =
      some (some (negative, digitsOf (Nat.toDigits 10 n))) := by
  have hdigits := digits_eq (isDigit_toDigits n)
  have hne := Nat.toDigits_ne_nil (b := 10) (n := n)
  generalize Nat.toDigits 10 n = cs at *
  cases cs with
  | nil => exact absurd rfl hne
  | cons c cs =>
    cases negative <;> simp [exponent?, hdigits, digitsOf]

/-- A text is a numeral if its parts are, with and without a sign. -/
theorem ofChars?_eq {whole : List Nat} {fraction : Option (List Nat)}
    {exponent : Option (Bool × List Nat)} {afterWhole afterFraction : List Char}
    (hwhole : wholePart? cs = some (whole, afterWhole))
    (hfraction : fraction? afterWhole = some (fraction, afterFraction))
    (hexponent : exponent? afterFraction = some exponent) (negative : Bool) :
    ofChars? (if negative then '-' :: cs else cs) =
      some ⟨negative, whole, fraction, exponent⟩ := by
  cases negative with
  | true => simp [ofChars?, hwhole, hfraction, hexponent]
  | false =>
    have hunsigned : ∀ rest, cs ≠ '-' :: rest := by
      rintro rest rfl
      cases hwhole
    rw [if_neg Bool.false_ne_true]
    unfold ofChars?
    split
    rename_i negative cs' hsign
    split at hsign
    · exact absurd rfl (hunsigned _)
    · cases hsign
      simp [hwhole, hfraction, hexponent]

end Numeral

namespace Double

variable {x : Double} {ds : List Char} {e : Int}

/-! ## The digits of the shortest decimal -/

theorem exists_dropTrailingZeros (cs : List Char) :
    ∃ n, cs = dropTrailingZeros cs ++ List.replicate n '0' := by
  have hsplit := List.takeWhile_append_dropWhile (p := (· == '0')) (l := cs.reverse)
  refine ⟨(cs.reverse.takeWhile (· == '0')).length, ?_⟩
  have hzeros : cs.reverse.takeWhile (· == '0') =
      List.replicate (cs.reverse.takeWhile (· == '0')).length '0' := by
    refine List.eq_replicate_iff.mpr ⟨rfl, fun c hc => ?_⟩
    exact beq_iff_eq.mp (List.all_eq_true.mp List.all_takeWhile c hc)
  unfold dropTrailingZeros
  rw [← List.reverse_replicate, ← hzeros, ← List.reverse_append, hsplit, List.reverse_reverse]

structure Leading (ds : List Char) : Prop where
  digits : ∀ c ∈ ds, c.isDigit = true
  ne_nil : ds ≠ []
  head?_ne_zero : ds.head? ≠ some '0'

theorem leading_dropTrailingZeros {n : Nat} (hn : 0 < n) :
    Leading (dropTrailingZeros (Nat.toDigits 10 n)) := by
  obtain ⟨zeros, hzeros⟩ := exists_dropTrailingZeros (Nat.toDigits 10 n)
  have hdigits := Numeral.isDigit_toDigits n
  have hhead := Numeral.head?_toDigits_ne_zero hn
  have hne := Nat.toDigits_ne_nil (b := 10) (n := n)
  generalize dropTrailingZeros (Nat.toDigits 10 n) = ds at *
  rw [hzeros] at hdigits hhead hne
  refine ⟨fun c hc => hdigits c (List.mem_append_left _ hc), ?_, ?_⟩
  · rintro rfl
    cases zeros with
    | zero => exact hne rfl
    | succ zeros => exact hhead rfl
  · intro h
    exact hhead (by rw [List.head?_append, h]; rfl)

/-! ## Where the point is put -/

/-- In positional notation a point divides the digits, filled up with zeros at both ends. -/
theorem exists_positional (hds : Leading ds) (e : Int) : ∃ w f before behind,
    positional ds e = w ++ '.' :: f ∧
      w ++ f = List.replicate before '0' ++ ds ++ List.replicate behind '0' ∧
      (w.length : Int) = before + e + 1 ∧ w ≠ [] ∧ f ≠ [] ∧
      (w.head? = some '0' → w.length = 1) := by
  obtain ⟨c, rest, rfl⟩ := List.exists_cons_of_ne_nil hds.ne_nil
  have hfirst : some c ≠ some '0' := hds.head?_ne_zero
  unfold positional
  split
  · refine ⟨['0'], List.replicate ((-e).toNat - 1) '0' ++ c :: rest, (-e).toNat, 0, rfl, ?_, ?_,
      List.cons_ne_nil _ _, by simp, fun _ => rfl⟩
    · obtain ⟨n, hn⟩ := Nat.exists_eq_add_of_lt (show 0 < (-e).toNat by omega)
      rw [hn]
      simp [List.replicate_succ]
    · rw [List.length_singleton]
      omega
  · extract_lets whole
    split
    · refine ⟨c :: rest ++ List.replicate (whole - (c :: rest).length) '0', ['0'], 0,
        whole - (c :: rest).length + 1, by simp, by simp [List.replicate_succ'], ?_,
        List.cons_ne_nil _ _, List.cons_ne_nil _ _, fun h => absurd h hfirst⟩
      rw [List.length_append, List.length_replicate]
      omega
    · refine ⟨(c :: rest).take whole, (c :: rest).drop whole, 0, 0, rfl, by simp, ?_,
        List.cons_ne_nil _ _, ?_, fun h => absurd h hfirst⟩
      · rw [List.length_take]
        omega
      · exact List.ne_nil_of_length_pos (by rw [List.length_drop]; omega)

/-! ## Reading the text -/

/-- The text is read as a numeral with a point or an exponent that denotes the real. -/
structure Spells (cs : List Char) (q : ℚ) : Prop where
  ofChars? : ∀ negative : Bool, ∃ n : Numeral,
    Numeral.ofChars? (if negative then '-' :: cs else cs) = some n ∧ n.negative = negative ∧
      n.IsDecimal ∧ n.magnitude = q
  inNumeral : ∀ c ∈ cs, Json.Token.inNumeral c = true

theorem inNumeral_of_isDigit {c : Char} (hc : c.isDigit = true) :
    Json.Token.inNumeral c = true := by
  simp [Json.Token.inNumeral, hc]

theorem ofDigitChars_padded (ds : List Char) (before behind : Nat) :
    Nat.ofDigitChars 10 (List.replicate before '0' ++ ds ++ List.replicate behind '0') 0 =
      10 ^ behind * Nat.ofDigitChars 10 ds 0 := by
  rw [Nat.ofDigitChars_append, Nat.ofDigitChars_append, Nat.ofDigitChars_replicate_zero,
    Nat.ofDigitChars_replicate_zero, Nat.mul_zero]

theorem digitsOf_append (cs ds : List Char) :
    Numeral.digitsOf (cs ++ ds) = Numeral.digitsOf cs ++ Numeral.digitsOf ds := List.map_append ..

theorem spells_positional (hds : Leading ds) (e : Int) :
    Spells (positional ds e) (Nat.ofDigitChars 10 ds 0 * 10 ^ (e + 1 - ds.length)) := by
  obtain ⟨w, f, before, behind, htext, hpadded, hpoint, hw, hf, hzero⟩ := exists_positional hds e
  have hall : ∀ c ∈ w ++ f, c.isDigit = true := by
    rw [hpadded]
    intro c hc
    simp only [List.mem_append, List.mem_replicate] at hc
    obtain (⟨-, rfl⟩ | hc) | ⟨-, rfl⟩ := hc
    · rfl
    · exact hds.digits c hc
    · rfl
  have hwhole : ∀ c ∈ w, c.isDigit = true := fun c hc => hall c (List.mem_append_left _ hc)
  have hfraction : ∀ c ∈ f, c.isDigit = true := fun c hc => hall c (List.mem_append_right _ hc)
  rw [htext]
  constructor
  · intro negative
    have hread := Numeral.fraction?_append hfraction hf .nil
    rw [List.append_nil] at hread
    refine ⟨_, Numeral.ofChars?_eq (Numeral.wholePart?_append hwhole hw hzero (.cons rfl f)) hread
      rfl negative, rfl, .inl rfl, ?_⟩
    have hlength := congrArg List.length hpadded
    simp only [List.length_append, List.length_replicate] at hlength
    have hexponent : e + 1 - ds.length = behind + -(f.length : Int) := by omega
    rw [Numeral.magnitude, Option.getD_some, ← digitsOf_append, Numeral.decimal_digitsOf, hpadded,
      ofDigitChars_padded, hexponent, zpow_add₀ (by norm_num)]
    simp [Numeral.power, Numeral.digitsOf]
    ring
  · intro c hc
    simp only [List.mem_append, List.mem_cons] at hc
    obtain hc | rfl | hc := hc
    · exact inNumeral_of_isDigit (hwhole c hc)
    · rfl
    · exact inNumeral_of_isDigit (hfraction c hc)

def exponentText (e : Int) : List Char :=
  'e' :: (if e < 0 then '-' else '+') :: Nat.toDigits 10 e.natAbs

theorem exponent?_exponentText (e : Int) : Numeral.exponent? (exponentText e) =
    some (some (decide (e < 0), Numeral.digitsOf (Nat.toDigits 10 e.natAbs))) := by
  have h := Numeral.exponent?_toDigits (decide (e < 0)) e.natAbs
  simpa only [exponentText, decide_eq_true_eq] using h

theorem power_exponentText (negative : Bool) (whole : List Nat) (fraction : Option (List Nat))
    (e : Int) : Numeral.power ⟨negative, whole, fraction,
      some (decide (e < 0), Numeral.digitsOf (Nat.toDigits 10 e.natAbs))⟩ = e := by
  unfold Numeral.power
  by_cases he : e < 0
  · simp only [he, decide_true, Numeral.decimal_digitsOf, Nat.ofDigitChars_ten_toDigits]
    omega
  · simp only [he, decide_false, Numeral.decimal_digitsOf, Nat.ofDigitChars_ten_toDigits]
    omega

/-- In scientific notation the point stands after the first digit, if more follow. -/
theorem exists_scientific (hds : Leading ds) (e : Int) : ∃ c f point fraction,
    ds = c :: f ∧ scientific ds e = [c] ++ (point ++ exponentText e) ∧
      Numeral.fraction? (point ++ exponentText e) = some (fraction, exponentText e) ∧
      fraction.getD [] = Numeral.digitsOf f ∧ (point = [] ∨ point = '.' :: f) := by
  obtain ⟨c, f, rfl⟩ := List.exists_cons_of_ne_nil hds.ne_nil
  cases f with
  | nil => exact ⟨c, [], [], none, rfl, rfl, rfl, rfl, .inl rfl⟩
  | cons d f =>
    have hdigits : ∀ c ∈ d :: f, c.isDigit = true :=
      fun c hc => hds.digits c (List.mem_cons_of_mem _ hc)
    refine ⟨c, d :: f, '.' :: d :: f, some (Numeral.digitsOf (d :: f)), rfl, ?_, ?_, rfl, .inr rfl⟩
    · simp [scientific, exponentText]
    · exact Numeral.fraction?_append hdigits (List.cons_ne_nil d f) (.cons rfl _)

theorem inNumeral_exponentText (e : Int) :
    ∀ c ∈ exponentText e, Json.Token.inNumeral c = true := by
  intro c hc
  simp only [exponentText, List.mem_cons] at hc
  obtain rfl | rfl | hc := hc
  · rfl
  · split <;> rfl
  · exact inNumeral_of_isDigit (Numeral.isDigit_toDigits _ c hc)

theorem spells_scientific (hds : Leading ds) (e : Int) :
    Spells (scientific ds e) (Nat.ofDigitChars 10 ds 0 * 10 ^ (e + 1 - ds.length)) := by
  obtain ⟨c, f, point, fraction, rfl, htext, hread, hfraction, hpoint⟩ := exists_scientific hds e
  obtain ⟨hc, hf⟩ := List.forall_mem_cons.mp hds.digits
  have hends : Numeral.EndsDigits (point ++ exponentText e) := by
    obtain rfl | rfl := hpoint <;> exact .cons rfl _
  rw [htext]
  constructor
  · intro negative
    have hwhole := Numeral.wholePart?_append (w := [c]) (by simpa using hc) (List.cons_ne_nil c [])
      (fun _ => rfl) hends
    refine ⟨_, Numeral.ofChars?_eq hwhole hread (exponent?_exponentText e) negative, rfl,
      .inr rfl, ?_⟩
    have hexponent : e + 1 - (c :: f).length = e - (Numeral.digitsOf f).length := by
      rw [Numeral.digitsOf, List.length_map, List.length_cons]
      omega
    rw [Numeral.magnitude, power_exponentText, hexponent]
    simp only [hfraction]
    rw [← digitsOf_append, Numeral.decimal_digitsOf, List.singleton_append]
  · intro d hd
    simp only [List.mem_append, List.mem_singleton] at hd
    obtain rfl | hd | hd := hd
    · exact inNumeral_of_isDigit hc
    · obtain rfl | rfl := hpoint
      · cases hd
      · obtain rfl | hd := List.mem_cons.mp hd
        · rfl
        · exact inNumeral_of_isDigit (hf d hd)
    · exact inNumeral_exponentText e d hd

/-- Trailing zeros move the point only. -/
theorem decimal_dropTrailingZeros (d : Decimal) :
    Nat.ofDigitChars 10 (dropTrailingZeros (Nat.toDigits 10 d.digits)) 0 *
      (10 : ℚ) ^ (d.exponent + (Nat.toDigits 10 d.digits).length - 1 + 1 -
        (dropTrailingZeros (Nat.toDigits 10 d.digits)).length) = d.digits * 10 ^ d.exponent := by
  obtain ⟨zeros, hzeros⟩ := exists_dropTrailingZeros (Nat.toDigits 10 d.digits)
  have hvalue : d.digits = 10 ^ zeros *
      Nat.ofDigitChars 10 (dropTrailingZeros (Nat.toDigits 10 d.digits)) 0 := by
    have hpadded := ofDigitChars_padded (dropTrailingZeros (Nat.toDigits 10 d.digits)) 0 zeros
    rwa [List.replicate_zero, List.nil_append, ← hzeros, Nat.ofDigitChars_ten_toDigits] at hpadded
  have hlength := congrArg List.length hzeros
  rw [List.length_append, List.length_replicate] at hlength
  generalize dropTrailingZeros (Nat.toDigits 10 d.digits) = ds at *
  have hexponent : d.exponent + (Nat.toDigits 10 d.digits).length - 1 + 1 - ds.length =
      zeros + d.exponent := by
    omega
  rw [hexponent, zpow_add₀ (by norm_num), hvalue, Nat.cast_mul, Nat.cast_pow, zpow_natCast]
  ring

/-- The text of a magnitude denotes a real that rounds to it. -/
theorem exists_spells_magnitudeText (hx : x.WellFormed) (style : Layout) :
    ∃ q, Spells (x.magnitudeText style) q ∧ x.Covers q := by
  unfold magnitudeText
  split
  · rename_i hzero
    refine ⟨0, ⟨fun negative => ?_, ?_⟩, covers_zero (beq_iff_eq.mp hzero)⟩
    · refine ⟨_, Numeral.ofChars?_eq rfl rfl rfl negative, rfl, .inl rfl, ?_⟩
      simp [Numeral.magnitude, Numeral.decimal]
    · simp [Json.Token.inNumeral]
  · rename_i hzero
    have hpositive : 0 < x.significand := Nat.pos_of_ne_zero fun h => hzero (beq_iff_eq.mpr h)
    have hds := leading_dropTrailingZeros (digits_shortest_pos hx hpositive)
    refine ⟨x.shortest.digits * 10 ^ x.shortest.exponent, ?_, covers_shortest hx hpositive⟩
    rw [← decimal_dropTrailingZeros]
    extract_lets d all ds e
    split
    · exact spells_positional hds e
    · exact spells_scientific hds e

end Double

namespace Numeral

theorem ofWhole_inj {a b : Bool} {m n : Nat} (h : ofWhole a m = ofWhole b n) : a = b ∧ m = n := by
  have hdecimal : decimal (ofWhole a m).whole = decimal (ofWhole b n).whole := by rw [h]
  refine ⟨congrArg negative h, ?_⟩
  rwa [show decimal (ofWhole a m).whole = m from foldl_digits_toDigits m,
    show decimal (ofWhole b n).whole = n from foldl_digits_toDigits n] at hdecimal

theorem not_isDecimal_ofWhole (negative : Bool) (n : Nat) : ¬ (ofWhole negative n).IsDecimal := by
  simp [ofWhole, IsDecimal]

/-- A numeral starts with a minus sign or a digit. -/
theorem exists_eq_cons_of_ofChars? {cs : List Char} {n : Numeral} (h : ofChars? cs = some n) :
    ∃ c rest, cs = c :: rest ∧ (c = '-' ∨ c.isDigit = true) := by
  cases cs with
  | nil => cases h
  | cons c rest =>
    refine ⟨c, rest, rfl, ?_⟩
    by_contra hneither
    obtain ⟨hsign, hdigit⟩ := not_or.mp hneither
    have hdigits : digits (c :: rest) = ([], c :: rest) := by
      simp [digits, digit?, hdigit]
    have hwhole : wholePart? (c :: rest) = none := by
      rw [wholePart?, hdigits]
    have hread : ofChars? (c :: rest) = none := by
      unfold ofChars?
      split
      rename_i negative cs hcs
      split at hcs
      · rename_i heq
        cases heq
        exact absurd rfl hsign
      · cases hcs
        rw [hwhole]
        rfl
    cases hread.symm.trans h

end Numeral

namespace Number

variable {m n : Number}

def WellFormed : Number → Prop
  | .integer _ => True
  | .double x => x.WellFormed

def Spelt : Number → Numeral → Prop
  | .integer i, numeral => numeral = .ofWhole (decide (i < 0)) i.natAbs
  | .double x, numeral =>
    numeral.negative = x.negative ∧ numeral.IsDecimal ∧ x.Covers numeral.magnitude

theorem exists_spelt (h : n.WellFormed) :
    ∃ numeral, Numeral.ofChars? n.text = some numeral ∧ n.Spelt numeral := by
  cases n with
  | integer i =>
    cases i with
    | ofNat k => exact ⟨_, Numeral.ofChars?_toDigits k, rfl⟩
    | negSucc k =>
      refine ⟨_, Numeral.ofChars?_negative (k + 1), ?_⟩
      rw [Spelt, decide_eq_true (Int.negSucc_lt_zero k)]
      rfl
  | double x =>
    obtain ⟨q, hspells, hcovers⟩ := Double.exists_spells_magnitudeText h Double.layout
    obtain ⟨numeral, hread, hnegative, hdecimal, rfl⟩ := hspells.ofChars? x.negative
    exact ⟨numeral, hread, hnegative, hdecimal, hcovers⟩

theorem Spelt.unique {numeral : Numeral} (hm : m.WellFormed) (hn : n.WellFormed)
    (h : m.Spelt numeral) (h' : n.Spelt numeral) : m = n := by
  cases m with
  | integer i =>
    have hwhole : ¬ numeral.IsDecimal := h ▸ Numeral.not_isDecimal_ofWhole _ _
    cases n with
    | integer j =>
      obtain ⟨hsign, habs⟩ := Numeral.ofWhole_inj (h.symm.trans h')
      rw [decide_eq_decide] at hsign
      congr 1
      omega
    | double y => exact absurd h'.2.1 hwhole
  | double x =>
    obtain ⟨hsign, hdecimal, hcovers⟩ := h
    cases n with
    | integer j => exact absurd hdecimal (h' ▸ Numeral.not_isDecimal_ofWhole _ _)
    | double y =>
      obtain ⟨hsign', -, hcovers'⟩ := h'
      obtain ⟨hsignificand, hscale⟩ := hcovers.unique hm hn hcovers'
      have hnegative : x.negative = y.negative := hsign.symm.trans hsign'
      cases x
      cases y
      cases hsignificand
      cases hscale
      cases hnegative
      rfl

/-- Two numbers are never written alike. -/
theorem eq_of_text_eq (hm : m.WellFormed) (hn : n.WellFormed) (h : m.text = n.text) : m = n := by
  obtain ⟨numeral, hread, hspelt⟩ := exists_spelt hm
  obtain ⟨numeral', hread', hspelt'⟩ := exists_spelt hn
  rw [h, hread'] at hread
  cases hread
  exact hspelt.unique hm hn hspelt'

theorem exists_text_eq_cons (h : n.WellFormed) :
    ∃ c rest, n.text = c :: rest ∧ (c = '-' ∨ c.isDigit = true) := by
  obtain ⟨numeral, hread, -⟩ := exists_spelt h
  exact Numeral.exists_eq_cons_of_ofChars? hread

theorem inNumeral_text (h : n.WellFormed) : ∀ c ∈ n.text, Json.Token.inNumeral c = true := by
  cases n with
  | integer i =>
    cases i with
    | ofNat k => exact fun c hc => Double.inNumeral_of_isDigit (Numeral.isDigit_toDigits k c hc)
    | negSucc k =>
      refine List.forall_mem_cons.mpr ⟨rfl, fun c hc => ?_⟩
      exact Double.inNumeral_of_isDigit (Numeral.isDigit_toDigits (k + 1) c hc)
  | double x =>
    obtain ⟨q, hspells, -⟩ := Double.exists_spells_magnitudeText h Double.layout
    show ∀ c ∈ x.text, _
    unfold Double.text
    split
    · exact List.forall_mem_cons.mpr ⟨rfl, hspells.inNumeral⟩
    · exact hspells.inNumeral

end Number

end ContentSpaces
