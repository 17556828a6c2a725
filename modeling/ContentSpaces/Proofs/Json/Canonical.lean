import ContentSpaces.Proofs.Json.Scanning
import ContentSpaces.Proofs.Number.Text
import Mathlib.Data.List.Perm.Basic

/-!
# The canonical form determines the value

The compact text of a value can be taken apart in one way only: its first character tells the kind of
the value, a literal ends at the first quote that is not escaped, and a numeral where a character
follows that none contains. So values with one canonical form have become equal by the sorting of
their fields.
-/

namespace ContentSpaces

/-! ## Strings -/

namespace Quoted

/-- Takes the first character off the text of a literal; the closing quote is none. -/
def unescape? : List Char → Option (Char × List Char)
  | '"' :: _ => none
  | '\\' :: 'u' :: _ :: _ :: high :: low :: rest => do
    some (Char.ofNat ((← hexDigit? high) * 16 + (← hexDigit? low)), rest)
  | '\\' :: c :: rest => (ofEscape c).map (·, rest)
  | c :: rest => some (c, rest)
  | [] => none

theorem unescape?_escaped (c : Char) (rest : List Char) :
    unescape? (escaped c rest) = some (c, rest) := by
  unfold escaped
  split
  case h_8 hquote hbackslash _ _ _ _ _ =>
    split
    · rename_i hcontrol
      have hhigh := Json.Token.hexDigit?_hexDigit (show c.toNat / 16 < 16 by omega)
      have hlow := Json.Token.hexDigit?_hexDigit (show c.toNat % 16 < 16 by omega)
      simp only [unescape?, hhigh, hlow, bind, Option.bind]
      rw [Nat.div_add_mod' c.toNat 16, Char.ofNat_toNat]
    · unfold unescape?
      split <;> simp_all
  all_goals rfl

/-- The text of a string tells where it ends. -/
theorem escapedAll_inj {s t rest rest' : List Char}
    (h : escapedAll s ('"' :: rest) = escapedAll t ('"' :: rest')) : s = t ∧ rest = rest' := by
  induction s generalizing t with
  | nil =>
    cases t with
    | nil => exact ⟨rfl, (List.cons.inj h).2⟩
    | cons d t =>
      have hread := congrArg unescape? h
      rw [escapedAll, escapedAll, unescape?_escaped] at hread
      cases hread
  | cons c s ih =>
    have hread := congrArg unescape? h
    rw [escapedAll, unescape?_escaped] at hread
    cases t with
    | nil => cases hread
    | cons d t =>
      rw [escapedAll, unescape?_escaped] at hread
      obtain ⟨rfl, htail⟩ := Prod.mk.inj (Option.some.inj hread)
      obtain ⟨rfl, hrest⟩ := ih htail
      exact ⟨rfl, hrest⟩

theorem write_inj {s t : String} {rest rest' : List Char} (h : write s rest = write t rest') :
    s = t ∧ rest = rest' := by
  obtain ⟨hchars, hrest⟩ := escapedAll_inj (List.cons.inj h).2
  exact ⟨String.toList_inj.mp hchars, hrest⟩

end Quoted

/-! ## Numbers -/

theorem Number.text_append_inj {m n : Number} {rest rest' : List Char} (hm : m.WellFormed)
    (hn : n.WellFormed) (hrest : Json.Token.Ends rest) (hrest' : Json.Token.Ends rest')
    (h : m.text ++ rest = n.text ++ rest') : m = n ∧ rest = rest' := by
  have hspan {n : Number} {rest : List Char} (hn : n.WellFormed) (hrest : Json.Token.Ends rest) :
      (n.text ++ rest).takeWhile Json.Token.inNumeral = n.text := by
    rw [List.takeWhile_append_of_pos (inNumeral_text hn)]
    cases rest with
    | nil => simp
    | cons c rest => simp [(hrest c rfl).1]
  have htext : m.text = n.text := by rw [← hspan hm hrest, h, hspan hn hrest']
  rw [htext] at h
  exact ⟨eq_of_text_eq hm hn htext, List.append_cancel_left h⟩

namespace Json

/-! ## Values -/

mutual

/-- The keys of every object are distinct, and every double is written in one way. -/
def Proper : Json → Prop
  | .number n => n.WellFormed
  | .array xs => ProperItems xs
  | .object fs => (fs.map Prod.fst).Nodup ∧ ProperFields fs
  | _ => True

def ProperItems : List Json → Prop
  | [] => True
  | v :: vs => Proper v ∧ ProperItems vs

def ProperFields : List (String × Json) → Prop
  | [] => True
  | (_, v) :: fs => Proper v ∧ ProperFields fs

end

/-- What the first character of a text tells about the value. -/
inductive Start where
  | null
  | bool (b : Bool)
  | number
  | string
  | array
  | object

def Start.ofChar? (c : Char) : Option Start :=
  if c = '-' ∨ c.isDigit = true then some .number
  else
    match c with
    | 'n' => some .null
    | 't' => some (.bool true)
    | 'f' => some (.bool false)
    | '"' => some .string
    | '[' => some .array
    | '\x7b' => some .object
    | _ => none

def start : Json → Start
  | .null => .null
  | .bool b => .bool b
  | .number _ => .number
  | .string _ => .string
  | .array _ => .array
  | .object _ => .object

theorem head?_write {v : Json} (hv : v.Proper) (rest : List Char) :
    (v.write rest).head?.bind Start.ofChar? = some v.start := by
  cases v with
  | null => rfl
  | bool b => cases b <;> rfl
  | number n =>
    obtain ⟨c, tail, htext, hc⟩ := Number.exists_text_eq_cons hv
    rw [write, htext]
    exact if_pos hc
  | string s => rfl
  | array vs => cases vs <;> rfl
  | object fs => cases fs <;> rfl

theorem start_eq_of_write_eq {v w : Json} {rest rest' : List Char} (hv : v.Proper) (hw : w.Proper)
    (h : v.write rest = w.write rest') : v.start = w.start := by
  have hstart := head?_write hv rest
  rw [h, head?_write hw rest'] at hstart
  exact (Option.some.inj hstart).symm

/-- No value starts with a closing bracket. -/
theorem write_ne_end {v : Json} {rest rest' : List Char} (hv : v.Proper) :
    v.write rest ≠ ']' :: rest' := by
  intro h
  have hstart := head?_write hv rest
  rw [h] at hstart
  cases hstart

-- The recursion is on the first value, and the start of the common text gives the second its form.
-- What follows an item or a field is a comma or a bracket, which ends a numeral.
mutual

/-- The text of a value tells where it ends, if what follows ends a numeral. -/
theorem write_inj : ∀ (v w : Json) {rest rest' : List Char}, v.Proper → w.Proper →
    Token.Ends rest → Token.Ends rest' → v.write rest = w.write rest' → v = w ∧ rest = rest'
  | .null, w, _, _, hv, hw, _, _, h => by
    have hstart := start_eq_of_write_eq hv hw h
    cases w <;> cases hstart
    simpa [write] using h
  | .bool b, w, _, _, hv, hw, _, _, h => by
    have hstart := start_eq_of_write_eq hv hw h
    cases w <;> cases hstart
    cases b <;> simpa [write] using h
  | .number n, w, _, _, hv, hw, hends, hends', h => by
    have hstart := start_eq_of_write_eq hv hw h
    cases w <;> cases hstart
    obtain ⟨rfl, hrest⟩ := Number.text_append_inj hv hw hends hends' h
    exact ⟨rfl, hrest⟩
  | .string s, w, _, _, hv, hw, _, _, h => by
    have hstart := start_eq_of_write_eq hv hw h
    cases w <;> cases hstart
    obtain ⟨rfl, hrest⟩ := Quoted.write_inj h
    exact ⟨rfl, hrest⟩
  | .array [], w, _, _, hv, hw, _, _, h => by
    have hstart := start_eq_of_write_eq hv hw h
    cases w <;> cases hstart
    rename_i ws
    cases ws with
    | nil => simpa [write] using h
    | cons w ws => exact absurd (List.cons.inj h).2.symm (write_ne_end hw.1)
  | .array (v :: vs), w, _, _, hv, hw, _, _, h => by
    have hstart := start_eq_of_write_eq hv hw h
    cases w <;> cases hstart
    rename_i ws
    cases ws with
    | nil => exact absurd (List.cons.inj h).2 (write_ne_end hv.1)
    | cons w ws =>
      obtain ⟨rfl, htail⟩ := write_inj v w hv.1 hw.1 (ends_writeItems vs _) (ends_writeItems ws _)
        (List.cons.inj h).2
      obtain ⟨rfl, hrest⟩ := writeItems_inj vs ws hv.2 hw.2 htail
      exact ⟨rfl, hrest⟩
  | .object [], w, _, _, hv, hw, _, _, h => by
    have hstart := start_eq_of_write_eq hv hw h
    cases w <;> cases hstart
    rename_i gs
    cases gs with
    | nil => simpa [write] using h
    | cons e gs => cases (List.cons.inj (List.cons.inj h).2).1
  | .object ((k, v) :: fs), w, _, _, hv, hw, _, _, h => by
    have hstart := start_eq_of_write_eq hv hw h
    cases w <;> cases hstart
    rename_i gs
    cases gs with
    | nil => cases (List.cons.inj (List.cons.inj h).2).1
    | cons e gs =>
      obtain ⟨l, w⟩ := e
      obtain ⟨rfl, hvalue⟩ := Quoted.write_inj (List.cons.inj h).2
      obtain ⟨rfl, htail⟩ := write_inj v w hv.2.1 hw.2.1 (ends_writeFields fs _)
        (ends_writeFields gs _) (List.cons.inj hvalue).2
      obtain ⟨rfl, hrest⟩ := writeFields_inj fs gs hv.2.2 hw.2.2 htail
      exact ⟨rfl, hrest⟩

theorem writeItems_inj : ∀ (vs ws : List Json) {rest rest' : List Char}, ProperItems vs →
    ProperItems ws → writeItems vs rest = writeItems ws rest' → vs = ws ∧ rest = rest'
  | [], [], _, _, _, _, h => ⟨rfl, (List.cons.inj h).2⟩
  | [], _ :: _, _, _, _, _, h => by cases (List.cons.inj h).1
  | _ :: _, [], _, _, _, _, h => by cases (List.cons.inj h).1
  | v :: vs, w :: ws, _, _, hv, hw, h => by
    obtain ⟨rfl, htail⟩ := write_inj v w hv.1 hw.1 (ends_writeItems vs _) (ends_writeItems ws _)
      (List.cons.inj h).2
    obtain ⟨rfl, hrest⟩ := writeItems_inj vs ws hv.2 hw.2 htail
    exact ⟨rfl, hrest⟩

theorem writeFields_inj : ∀ (fs gs : List (String × Json)) {rest rest' : List Char},
    ProperFields fs → ProperFields gs → writeFields fs rest = writeFields gs rest' →
    fs = gs ∧ rest = rest'
  | [], [], _, _, _, _, h => ⟨rfl, (List.cons.inj h).2⟩
  | [], (_, _) :: _, _, _, _, _, h => by cases (List.cons.inj h).1
  | (_, _) :: _, [], _, _, _, _, h => by cases (List.cons.inj h).1
  | (k, v) :: fs, (l, w) :: gs, _, _, hv, hw, h => by
    obtain ⟨rfl, hvalue⟩ := Quoted.write_inj (List.cons.inj h).2
    obtain ⟨rfl, htail⟩ := write_inj v w hv.1 hw.1 (ends_writeFields fs _) (ends_writeFields gs _)
      (List.cons.inj hvalue).2
    obtain ⟨rfl, hrest⟩ := writeFields_inj fs gs hv.2 hw.2 htail
    exact ⟨rfl, hrest⟩

end

/-- Two values are never written alike. -/
theorem eq_of_compact_eq {v w : Json} (hv : v.Proper) (hw : w.Proper)
    (h : v.compact = w.compact) : v = w :=
  (write_inj v w hv hw .nil .nil (String.ofList_inj.mp h)).1

/-! ## The order of fields -/

mutual

/-- The same value up to the order of the fields of every object. -/
def Same : Json → Json → Prop
  | .null, .null => True
  | .bool a, .bool b => a = b
  | .number m, .number n => m = n
  | .string s, .string t => s = t
  | .array vs, .array ws => SameItems vs ws
  | .object fs, .object gs => ∃ hs, SameFields fs hs ∧ hs.Perm gs
  | _, _ => False

def SameItems : List Json → List Json → Prop
  | [], [] => True
  | v :: vs, w :: ws => Same v w ∧ SameItems vs ws
  | _, _ => False

def SameFields : List (String × Json) → List (String × Json) → Prop
  | [], [] => True
  | (k, v) :: fs, (l, w) :: gs => k = l ∧ Same v w ∧ SameFields fs gs
  | _, _ => False

end

theorem sortedFields_eq_map (fs : Fields) :
    sortedFields fs = fs.map fun e => (e.1, e.2.sorted) := by
  induction fs with
  | nil => rfl
  | cons e fs ih => rw [sortedFields, ih, List.map_cons]

theorem properFields_iff {fs : Fields} : ProperFields fs ↔ ∀ e ∈ fs, e.2.Proper := by
  induction fs with
  | nil => simp [ProperFields]
  | cons e fs ih => rw [ProperFields, ih, List.forall_mem_cons]

abbrev byKey (fs : Fields) : Fields := fs.mergeSort fun a b => a.1 ≤ b.1

theorem byKey_eq_of_perm {fs gs : Fields} (hperm : fs.Perm gs)
    (hdistinct : (gs.map Prod.fst).Nodup) : byKey fs = byKey gs := by
  have hpairwise (fs : Fields) : (byKey fs).Pairwise fun a b => decide (a.1 ≤ b.1) := by
    refine List.pairwise_mergeSort ?_ ?_ fs
    · intro a b c hab hbc
      simp only [decide_eq_true_eq] at *
      exact String.le_trans hab hbc
    · intro a b
      simpa using String.le_total a.1 b.1
  have hsame : (byKey fs).Perm (byKey gs) :=
    (List.mergeSort_perm fs _).trans (hperm.trans (List.mergeSort_perm gs _).symm)
  -- Two fields that may stand in either order have one key, so they are one field.
  refine hsame.eq_of_pairwise ?_ (hpairwise fs) (hpairwise gs)
  intro a b ha hb hab hba
  have hkeys : a.1 = b.1 := String.le_antisymm (of_decide_eq_true hab) (of_decide_eq_true hba)
  have hmem : a ∈ gs := hperm.mem_iff.mp (List.mem_mergeSort.mp ha)
  exact List.inj_on_of_nodup_map hdistinct hmem (List.mem_mergeSort.mp hb) hkeys

/-- Lists whose images are rearrangements of each other are so up to elements of one image. -/
theorem exists_perm_of_map_perm {α β : Type} {f : α → β} {as bs : List α}
    (h : (as.map f).Perm (bs.map f)) : ∃ cs : List α, as.map f = cs.map f ∧ cs.Perm bs := by
  have himages : List.Forall₂ (fun b a => b = f a) (bs.map f) bs :=
    List.forall₂_map_left_iff.mpr (List.forall₂_same.mpr fun _ _ => rfl)
  obtain ⟨cs, hcs, hperm⟩ := List.perm_comp_forall₂ h himages
  refine ⟨cs, ?_, hperm⟩
  have heq : List.Forall₂ Eq (as.map f) (cs.map f) := List.forall₂_map_right_iff.mpr hcs
  rwa [List.forall₂_eq_eq_eq] at heq

mutual

theorem sorted_eq_of_same : ∀ {v w : Json}, w.Proper → Same v w → v.sorted = w.sorted
  | .null, w, _, h => by
    cases w <;> cases h
    rfl
  | .bool _, w, _, h => by
    cases w <;> cases h
    rfl
  | .number _, w, _, h => by
    cases w <;> cases h
    rfl
  | .string _, w, _, h => by
    cases w <;> cases h
    rfl
  | .array vs, .array ws, hw, h => congrArg Json.array (sortedItems_eq_of_same hw h)
  | .object fs, .object gs, hw, ⟨hs, hfields, hperm⟩ => by
    have hproper : ProperFields hs := properFields_iff.mpr fun e he =>
      properFields_iff.mp hw.2 e (hperm.mem_iff.mp he)
    have hdistinct : ((sortedFields gs).map Prod.fst).Nodup := by
      rw [sortedFields_eq_map, List.map_map]
      exact hw.1
    have hrearranged : (sortedFields fs).Perm (sortedFields gs) := by
      rw [sortedFields_eq_of_same hproper hfields, sortedFields_eq_map, sortedFields_eq_map]
      exact hperm.map _
    exact congrArg Json.object (byKey_eq_of_perm hrearranged hdistinct)

theorem sortedItems_eq_of_same : ∀ {vs ws : List Json}, ProperItems ws → SameItems vs ws →
    sortedItems vs = sortedItems ws
  | [], [], _, _ => rfl
  | v :: vs, w :: ws, hw, h => by
    rw [sortedItems, sortedItems, sorted_eq_of_same hw.1 h.1, sortedItems_eq_of_same hw.2 h.2]

theorem sortedFields_eq_of_same : ∀ {fs gs : List (String × Json)}, ProperFields gs →
    SameFields fs gs → sortedFields fs = sortedFields gs
  | [], [], _, _ => rfl
  | (k, v) :: fs, (l, w) :: gs, hg, ⟨hkey, hvalue, hrest⟩ => by
    rw [sortedFields, sortedFields, hkey, sorted_eq_of_same hg.1 hvalue,
      sortedFields_eq_of_same hg.2 hrest]

end

mutual

theorem same_of_sorted_eq : ∀ {v w : Json}, v.sorted = w.sorted → Same v w
  | .null, w, h => by
    cases w <;> cases h
    trivial
  | .bool _, w, h => by
    cases w <;> cases h
    rfl
  | .number _, w, h => by
    cases w <;> cases h
    rfl
  | .string _, w, h => by
    cases w <;> cases h
    rfl
  | .array vs, w, h => by
    cases w with
    | array ws => exact sameItems_of_sorted_eq (Json.array.inj h)
    | _ => cases h
  | .object fs, w, h => by
    cases w with
    | object gs =>
      have hperm : (sortedFields fs).Perm (sortedFields gs) := by
        have hsame : byKey (sortedFields fs) = byKey (sortedFields gs) := Json.object.inj h
        have hgs : (byKey (sortedFields gs)).Perm (sortedFields gs) := List.mergeSort_perm _ _
        rw [← hsame] at hgs
        exact (List.mergeSort_perm _ _).symm.trans hgs
      -- The fields with sorted values are rearranged, so the fields are up to their sorted values.
      rw [sortedFields_eq_map fs, sortedFields_eq_map gs] at hperm
      obtain ⟨hs, hfields, hrearranged⟩ := exists_perm_of_map_perm hperm
      rw [← sortedFields_eq_map, ← sortedFields_eq_map] at hfields
      exact ⟨hs, sameFields_of_sorted_eq hfields, hrearranged⟩
    | _ => cases h

theorem sameItems_of_sorted_eq : ∀ {vs ws : List Json}, sortedItems vs = sortedItems ws →
    SameItems vs ws
  | [], [], _ => trivial
  | v :: vs, w :: ws, h => by
    obtain ⟨hfirst, hrest⟩ := List.cons.inj h
    exact ⟨same_of_sorted_eq hfirst, sameItems_of_sorted_eq hrest⟩

theorem sameFields_of_sorted_eq : ∀ {fs gs : List (String × Json)},
    sortedFields fs = sortedFields gs → SameFields fs gs
  | [], [], _ => trivial
  | (k, v) :: fs, (l, w) :: gs, h => by
    obtain ⟨hfirst, hrest⟩ := List.cons.inj h
    obtain ⟨hkey, hvalue⟩ := Prod.mk.inj hfirst
    exact ⟨hkey, same_of_sorted_eq hvalue, sameFields_of_sorted_eq hrest⟩

end

mutual

theorem Proper.sorted : ∀ {v : Json}, v.Proper → v.sorted.Proper
  | .null, _ => trivial
  | .bool _, _ => trivial
  | .number _, h => h
  | .string _, _ => trivial
  | .array _, h => properItems_sortedItems (show ProperItems _ from h)
  | .object fs, h => by
    have hperm : (byKey (sortedFields fs)).Perm (sortedFields fs) := List.mergeSort_perm _ _
    have hproper : ProperFields (sortedFields fs) := properFields_sortedFields h.2
    have hfields := properFields_iff.mp hproper
    constructor
    · refine (hperm.map Prod.fst).nodup_iff.mpr ?_
      rw [sortedFields_eq_map, List.map_map]
      exact h.1
    · exact properFields_iff.mpr fun e he => hfields e (hperm.mem_iff.mp he)

theorem properItems_sortedItems : ∀ {vs : List Json}, ProperItems vs → ProperItems (sortedItems vs)
  | [], _ => trivial
  | _ :: _, h => ⟨h.1.sorted, properItems_sortedItems h.2⟩

theorem properFields_sortedFields : ∀ {fs : List (String × Json)}, ProperFields fs →
    ProperFields (sortedFields fs)
  | [], _ => trivial
  | (_, _) :: _, h => ⟨h.1.sorted, properFields_sortedFields h.2⟩

end

/-- Two values have one canonical form exactly if they are the same up to the order of fields. The
two doubles of magnitude zero are different values. -/
theorem canonical_eq_iff {v w : Json} (hv : v.Proper) (hw : w.Proper) :
    v.canonical = w.canonical ↔ Same v w := by
  constructor
  · intro h
    exact same_of_sorted_eq (eq_of_compact_eq hv.sorted hw.sorted h)
  · intro h
    exact congrArg compact (sorted_eq_of_same hw h)

section Trial

def tenth : Double := ⟨false, 7205759403792794, 1018⟩

def one : Double := ⟨false, 4503599627370496, 1022⟩

def layered (fields : Fields) : Json :=
  .object [("b", .array [.ofNat 1, .object fields]), ("a", .null)]

def layeredAnew (fields : Fields) : Json :=
  .object [("a", .null), ("b", .array [.ofNat 1, .object fields.reverse])]

def trialFields : Fields := [("y", .string "\",\n\\"), ("x", .number (.double tenth))]

/-- The order of fields makes no difference, and that between an integer and a double does. -/
theorem layered_canonical :
    (layered trialFields).Proper ∧ (layeredAnew trialFields).Proper ∧
      (layered trialFields).canonical = (layeredAnew trialFields).canonical ∧
      (Json.array [.ofNat 1]).Proper ∧ (Json.array [.number (.double one)]).Proper ∧
      (Json.array [.ofNat 1]).canonical ≠ (Json.array [.number (.double one)]).canonical := by
  have htenth : tenth.WellFormed := ⟨by decide, by decide⟩
  have hone : one.WellFormed := ⟨by decide, by decide⟩
  have hlayered : (layered trialFields).Proper :=
    ⟨by decide, ⟨trivial, ⟨by decide, trivial, htenth, trivial⟩, trivial⟩, trivial, trivial⟩
  have hanew : (layeredAnew trialFields).Proper :=
    ⟨by decide, trivial, ⟨trivial, ⟨by decide, htenth, trivial, trivial⟩, trivial⟩, trivial⟩
  have hinner : Same (.object trialFields) (.object trialFields.reverse) :=
    ⟨trialFields, ⟨rfl, rfl, rfl, rfl, trivial⟩, .swap _ _ _⟩
  have hsame : Same (layered trialFields) (layeredAnew trialFields) :=
    ⟨[("b", .array [.ofNat 1, .object trialFields.reverse]), ("a", .null)],
      ⟨rfl, ⟨rfl, hinner, trivial⟩, rfl, trivial, trivial⟩, .swap _ _ _⟩
  have hinteger : (Json.array [.ofNat 1]).Proper := ⟨trivial, trivial⟩
  have hdouble : (Json.array [.number (.double one)]).Proper := ⟨hone, trivial⟩
  refine ⟨hlayered, hanew, (canonical_eq_iff hlayered hanew).mpr hsame, hinteger, hdouble,
    fun h => ?_⟩
  cases ((canonical_eq_iff hinteger hdouble).mp h).1

end Trial

end Json

end ContentSpaces
