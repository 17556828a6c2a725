import ContentSpaces.Proofs.Wire

/-!
# Reading back indented text

The indented form has the lexemes of the compact form, with blanks between them. A blank is no part
of a lexeme, so the indented text of a value is read as the compact one.
-/

namespace ContentSpaces.Json

variable {cs rest : List Char} {ts : List Token} {c : Char} {level : Nat}

namespace Token

theorem Scans.blank (hc : isBlank c = Bool.true) (h : Scans cs ts) : Scans (c :: cs) ts := by
  intro done
  rw [scanFrom_cons, step, start, if_pos hc, Option.bind_some]
  exact h done

theorem Scans.newline (level : Nat) (h : Scans cs ts) : Scans (Json.newline level cs) ts := by
  have hblanks : ∀ n, Scans (List.replicate n ' ' ++ cs) ts := by
    intro n
    induction n with
    | zero => exact h
    | succ n ih => exact ih.blank rfl
  exact (hblanks (2 * level)).blank rfl

theorem Ends.newline (level : Nat) (cs : List Char) : Ends (Json.newline level cs) := .cons rfl rfl

end Token

theorem ends_indentItems (level : Nat) (vs : List Json) (rest : List Char) :
    Token.Ends (indentItems level vs rest) := by
  cases vs with
  | nil => exact .newline level _
  | cons v vs => exact .cons rfl rfl

theorem ends_indentFields (level : Nat) (fs : Fields) (rest : List Char) :
    Token.Ends (indentFields level fs rest) := by
  cases fs with
  | nil => exact .newline level _
  | cons e fs => exact .cons rfl rfl

mutual

theorem scans_writeIndented : ∀ (level : Nat) (v : Json) {rest : List Char} {ts : List Token},
    v.Integral → Token.Ends rest → Token.Scans rest ts →
      Token.Scans (v.writeIndented level rest) (v.tokens ts)
  | _, .null, _, _, hv, hends, h => scans_write .null hv hends h
  | _, .bool b, _, _, hv, hends, h => scans_write (.bool b) hv hends h
  | _, .number n, _, _, hv, hends, h => scans_write (.number n) hv hends h
  | _, .string s, _, _, hv, hends, h => scans_write (.string s) hv hends h
  | _, .array [], _, _, hv, hends, h => scans_write (.array []) hv hends h
  | level, .array (v :: vs), _, _, hall, _, h => by
    have hrest := scans_indentItems level vs hall.2 h
    have hitems := scans_writeIndented (level + 1) v hall.1 (ends_indentItems level vs _) hrest
    exact (hitems.newline (level + 1)).beginArray
  | _, .object [], _, _, hv, hends, h => scans_write (.object []) hv hends h
  | level, .object ((k, v) :: fs), _, _, hall, _, h => by
    have hrest := scans_indentFields level fs hall.2 h
    have hvalue := scans_writeIndented (level + 1) v hall.1 (ends_indentFields level fs _) hrest
    have hfield := (hvalue.blank (c := ' ') rfl).colon.string k
    exact (hfield.newline (level + 1)).beginObject

theorem scans_indentItems : ∀ (level : Nat) (vs : List Json) {rest : List Char} {ts : List Token},
    IntegralItems vs → Token.Scans rest ts →
      Token.Scans (indentItems level vs rest) (tokenItems vs ts)
  | level, [], _, _, _, h => h.endArray.newline level
  | level, v :: vs, _, _, hall, h => by
    have hrest := scans_indentItems level vs hall.2 h
    have hitems := scans_writeIndented (level + 1) v hall.1 (ends_indentItems level vs _) hrest
    exact (hitems.newline (level + 1)).comma

theorem scans_indentFields : ∀ (level : Nat) (fs : Fields) {rest : List Char} {ts : List Token},
    IntegralFields fs → Token.Scans rest ts →
      Token.Scans (indentFields level fs rest) (tokenFields fs ts)
  | level, [], _, _, _, h => h.endObject.newline level
  | level, (k, v) :: fs, _, _, hall, h => by
    have hrest := scans_indentFields level fs hall.2 h
    have hvalue := scans_writeIndented (level + 1) v hall.1 (ends_indentFields level fs _) hrest
    have hfield := (hvalue.blank (c := ' ') rfl).colon.string k
    exact (hfield.newline (level + 1)).comma

end

theorem Tree.scan?_indented {v : Json} (hv : v.Integral) :
    scan? v.indented.toList = some (ofJson v) := by
  have hscanned := (scans_writeIndented 0 v hv .nil .nil).scan?_eq
  rw [indented, String.toList_ofList, scan?, hscanned, Option.bind_some, ofTokens?_tokens]

end ContentSpaces.Json

/-- The layout of a text makes no difference to what is read from it. -/
theorem ContentSpaces.Wire.ofText?_indented {α : Type} {v : Json} (hv : v.Integral)
    (read : Decoder α) : ofText? read v.indented = ofJson? read v := by
  rw [ofText?, Json.Tree.scan?_indented hv]
  rfl
