import ContentSpaces.Proofs.Json.Scanning

/-!
# Reading back what was written

The lexemes of a value build its tree again, and the tree has the value, as long as its containers do
not nest too deeply. Every object must list its keys in order, because reading puts them in order.
-/

namespace ContentSpaces

theorem Entries.insert_append {κ ν : Type} [DecidableEq κ] [Ord κ] [Std.TransOrd κ]
    [Std.LawfulEqOrd κ] {k : κ} {v : ν} {es : List (κ × ν)}
    (h : ∀ e ∈ es, compare e.1 k = .lt) : insert k v es = es ++ [(k, v)] := by
  induction es with
  | nil => rfl
  | cons e es ih =>
    obtain ⟨hlt, hrest⟩ := List.forall_mem_cons.mp h
    have hne : k ≠ e.1 := (ne_of_compare_lt hlt).symm
    have hnot : ¬ compare k e.1 = .lt := by
      rw [Std.OrientedCmp.gt_of_lt hlt]
      decide
    rw [insert, if_neg hne, if_neg hnot, ih hrest]
    rfl

namespace Json

open Quoted (Unit16)

mutual

def depth : Json → Nat
  | .array xs => 1 + depthItems xs
  | .object fs => 1 + depthFields fs
  | _ => 0

def depthItems : List Json → Nat
  | [] => 0
  | v :: vs => max (depth v) (depthItems vs)

def depthFields : List (String × Json) → Nat
  | [] => 0
  | (_, v) :: fs => max (depth v) (depthFields fs)

end

namespace Tree

theorem decode_map_scalar (cs : List Char) : Quoted.decode (cs.map .scalar) = some cs := by
  induction cs with
  | nil => rfl
  | cons c cs ih => rw [List.map_cons, Quoted.decode, ih, Option.map_some]

theorem decodeString_units (s : String) : Quoted.decodeString (units s) = some s := by
  rw [Quoted.decodeString, units, decode_map_scalar, Option.map_some, String.ofList_toList]

def build (state : Expecting) (ts : List Token) : Option Expecting := ts.foldlM step state

theorem build_cons (state : Expecting) (t : Token) (ts : List Token) :
    build state (t :: ts) = (step state t).bind fun next => build next ts := rfl

/-- The first item of an array starts like any value. -/
theorem build_firstItem (stack : List Frame) (v : Json) (ts : List Token) :
    build (.firstItem stack) (v.tokens ts) = build (.value (.item [] :: stack)) (v.tokens ts) := by
  unfold Json.tokens
  split <;> rfl

mutual

theorem build_tokens : ∀ (v : Json) (stack : List Frame) (ts : List Token),
    build (.value stack) (v.tokens ts) = build (.after (ofJson v) stack) ts
  | .null, _, _ => rfl
  | .bool _, _, _ => rfl
  | .number _, _, _ => rfl
  | .string _, _, _ => rfl
  | .array [], _, _ => rfl
  | .array (v :: vs), stack, ts => by
    have hfirst := build_firstItem stack v (tokenItems vs ts)
    have hvalue := build_tokens v (.item [] :: stack) (tokenItems vs ts)
    have hrest := build_tokenItems vs (ofJson v) [] stack ts
    exact hfirst.trans (hvalue.trans hrest)
  | .object [], _, _ => rfl
  | .object ((k, v) :: fs), stack, ts => by
    have hvalue := build_tokens v (.field [] (units k) :: stack) (tokenFields fs ts)
    have hrest := build_tokenFields fs (units k) (ofJson v) [] stack ts
    exact hvalue.trans hrest

theorem build_tokenItems : ∀ (vs : List Json) (x : Tree) (done : List Tree) (stack : List Frame)
    (ts : List Token), build (.after x (.item done :: stack)) (tokenItems vs ts) =
      build (.after (.array (done.reverse ++ x :: ofItems vs)) stack) ts
  | [], x, done, stack, ts => by
    rw [tokenItems, build_cons, step, Option.bind_some, List.reverse_cons]
    rfl
  | v :: vs, x, done, stack, ts => by
    have hvalue := build_tokens v (.item (x :: done) :: stack) (tokenItems vs ts)
    have hrest := build_tokenItems vs (ofJson v) (x :: done) stack ts
    rw [tokenItems, build_cons, step, Option.bind_some, hvalue, hrest, List.reverse_cons,
      List.append_assoc]
    rfl

theorem build_tokenFields : ∀ (fs : List (String × Json)) (k : List Unit16) (x : Tree)
    (done : List (List Unit16 × Tree)) (stack : List Frame) (ts : List Token),
    build (.after x (.field done k :: stack)) (tokenFields fs ts) =
      build (.after (.object (done.reverse ++ (k, x) :: ofFields fs)) stack) ts
  | [], k, x, done, stack, ts => by
    rw [tokenFields, build_cons, step, Option.bind_some, List.reverse_cons]
    rfl
  | (k', v) :: fs, k, x, done, stack, ts => by
    have hvalue := build_tokens v (.field ((k, x) :: done) (units k') :: stack) (tokenFields fs ts)
    have hrest := build_tokenFields fs (units k') (ofJson v) ((k, x) :: done) stack ts
    rw [tokenFields, build_cons, step, Option.bind_some, build_cons, step, Option.bind_some,
      build_cons, step, Option.bind_some, hvalue, hrest, List.reverse_cons, List.append_assoc]
    rfl

end

/-- The lexemes of a value build its tree. -/
theorem ofTokens?_tokens (v : Json) : ofTokens? (v.tokens []) = some (ofJson v) := by
  have hbuilt : (v.tokens []).foldlM step (.value []) = some (.after (ofJson v) []) :=
    build_tokens v [] []
  rw [ofTokens?, hbuilt]
  rfl

theorem scan?_write {v : Json} (hv : v.Integral) : scan? (v.write []) = some (ofJson v) := by
  rw [scan?, Json.scan?_write hv, Option.bind_some, ofTokens?_tokens]

mutual

theorem value?_ofJson : ∀ (v : Json) (d : Nat), v.Ordered →
    value? d (ofJson v) = if v.depth ≤ d then some v else none
  | .null, d, _ => (if_pos (Nat.zero_le d)).symm
  | .bool _, d, _ => (if_pos (Nat.zero_le d)).symm
  | .number _, d, _ => (if_pos (Nat.zero_le d)).symm
  | .string s, d, _ => by
    rw [ofJson, value?, decodeString_units, Option.map_some]
    exact (if_pos (Nat.zero_le d)).symm
  | .array xs, 0, _ => by
    rw [ofJson, value?, if_pos rfl, if_neg (by rw [depth]; omega)]
  | .array xs, d + 1, h => by
    have hitems := items?_ofItems xs d h
    have hdepth : depth (.array xs) ≤ d + 1 ↔ depthItems xs ≤ d := by
      rw [depth]
      omega
    rw [ofJson, value?, if_neg (Nat.succ_ne_zero d), Nat.add_sub_cancel, hitems]
    simp only [hdepth, Option.map_if]
  | .object fs, 0, _ => by
    rw [ofJson, value?, if_pos rfl, if_neg (by rw [depth]; omega)]
  | .object fs, d + 1, h => by
    have hfields := fields?_ofFields fs d [] h.2 h.1
    have hdepth : depth (.object fs) ≤ d + 1 ↔ depthFields fs ≤ d := by
      rw [depth]
      omega
    rw [ofJson, value?, if_neg (Nat.succ_ne_zero d), Nat.add_sub_cancel, hfields]
    simp only [hdepth, Option.map_if, List.nil_append]

theorem items?_ofItems : ∀ (vs : List Json) (d : Nat), OrderedItems vs →
    items? d (ofItems vs) = if depthItems vs ≤ d then some vs else none
  | [], d, _ => (if_pos (Nat.zero_le d)).symm
  | v :: vs, d, h => by
    have hvalue := value?_ofJson v d h.1
    have hrest := items?_ofItems vs d h.2
    rw [ofItems, items?, hvalue, hrest, depthItems]
    simp only [Nat.max_le]
    by_cases hv : v.depth ≤ d <;> by_cases hvs : depthItems vs ≤ d <;> simp [hv, hvs]

theorem fields?_ofFields : ∀ (fs : List (String × Json)) (d : Nat) (read : Fields),
    OrderedFields fs → Entries.Ascending (read ++ fs) →
    fields? d (ofFields fs) read = if depthFields fs ≤ d then some (read ++ fs) else none
  | [], d, read, _, _ => by
    rw [ofFields, fields?, List.append_nil]
    exact (if_pos (Nat.zero_le d)).symm
  | (k, v) :: fs, d, read, h, hascending => by
    have hbefore : ∀ e ∈ read, compare e.1 k = .lt := fun e he =>
      (List.pairwise_append.mp hascending).2.2 e he (k, v) List.mem_cons_self
    have hmoved : read ++ (k, v) :: fs = read ++ [(k, v)] ++ fs := by
      rw [List.append_assoc, List.singleton_append]
    have hvalue := value?_ofJson v d h.1
    have hrest := fields?_ofFields fs d (read ++ [(k, v)]) h.2 (hmoved ▸ hascending)
    rw [ofFields, fields?, decodeString_units, hvalue, depthFields, hmoved]
    simp only [Nat.max_le]
    by_cases hv : v.depth ≤ d
    · simp [hv, Entries.insert_append hbefore, hrest]
    · simp [hv]

end

end Tree

/-- A value is read back from its compact text if it does not nest too deeply. -/
theorem ofText?_compact {v : Json} (hintegral : v.Integral) (hordered : v.Ordered) :
    ofText? v.compact = if v.depth ≤ Tree.maxDepth then some v else none := by
  rw [ofText?, compact, String.toList_ofList, read?, Tree.scan?_write hintegral, Option.bind_some,
    Tree.value?_ofJson v _ hordered]

end Json

end ContentSpaces
