import ContentSpaces.Json.Tree
import ContentSpaces.Json.Writer
import ContentSpaces.Proofs.Number

/-!
# Scanning what was written

The writer puts lexemes one after the other, and the scanner takes them apart again. A numeral or a
word has no end of its own, so the rest of the text must begin with a character that ends it.
-/

namespace ContentSpaces.Json

open Quoted (Unit16)

variable {cs rest : List Char} {ts done : List Token} {t : Token} {c : Char}

namespace Token

def scanFrom (state : Mode × List Token) (cs : List Char) : Option (List Token) :=
  (cs.foldlM step state).bind finish

/-- The text has these lexemes, whatever was scanned before. -/
def Scans (cs : List Char) (ts : List Token) : Prop :=
  ∀ done, scanFrom (.between, done) cs = some (done.reverse ++ ts)

def Ends (rest : List Char) : Prop :=
  ∀ c, rest.head? = some c → inNumeral c = false ∧ c.isAlpha = false

theorem scanFrom_cons (state : Mode × List Token) (c : Char) (cs : List Char) :
    scanFrom state (c :: cs) = (step state c).bind fun next => scanFrom next cs := by
  unfold scanFrom
  rw [List.foldlM_cons, Option.bind_eq_bind, Option.bind_assoc]

theorem Scans.scan?_eq (h : Scans cs ts) : scan? cs = some ts := h []

theorem Scans.nil : Scans [] [] := fun done => by
  simp [scanFrom, finish]

theorem Ends.nil : Ends [] := nofun

theorem Ends.cons (hnumeral : inNumeral c = false) (halpha : c.isAlpha = false) :
    Ends (c :: rest) := by
  intro c' h
  cases h
  exact ⟨hnumeral, halpha⟩

/-- A lexeme of one character. -/
theorem Scans.single (hstart : ∀ done, start done c = some (.between, t :: done))
    (h : Scans cs ts) : Scans (c :: cs) (t :: ts) := by
  intro done
  rw [scanFrom_cons, step, hstart, Option.bind_some, h, List.reverse_cons, List.append_assoc]
  rfl

theorem Scans.beginArray (h : Scans cs ts) : Scans ('[' :: cs) (.beginArray :: ts) :=
  h.single fun _ => rfl

theorem Scans.endArray (h : Scans cs ts) : Scans (']' :: cs) (.endArray :: ts) :=
  h.single fun _ => rfl

theorem Scans.beginObject (h : Scans cs ts) : Scans ('\x7b' :: cs) (.beginObject :: ts) :=
  h.single fun _ => rfl

theorem Scans.endObject (h : Scans cs ts) : Scans ('\x7d' :: cs) (.endObject :: ts) :=
  h.single fun _ => rfl

theorem Scans.comma (h : Scans cs ts) : Scans (',' :: cs) (.comma :: ts) :=
  h.single fun _ => rfl

theorem Scans.colon (h : Scans cs ts) : Scans (':' :: cs) (.colon :: ts) :=
  h.single fun _ => rfl

/-! ## Words and numerals -/

theorem scanFrom_numeral_of_ends {chars : List Char} (hends : Ends rest)
    (ht : ofNumeral? chars.reverse = some t) :
    scanFrom (.numeral chars, done) rest = scanFrom (.between, t :: done) rest := by
  cases rest with
  | nil => simp [scanFrom, finish, ht]
  | cons c rest =>
    obtain ⟨hnumeral, -⟩ := hends c rfl
    rw [scanFrom_cons, scanFrom_cons, step, step, hnumeral, ht]
    rfl

theorem scanFrom_word_of_ends {letters : List Char} (hends : Ends rest)
    (ht : ofWord? letters.reverse = some t) :
    scanFrom (.word letters, done) rest = scanFrom (.between, t :: done) rest := by
  cases rest with
  | nil => simp [scanFrom, finish, ht]
  | cons c rest =>
    obtain ⟨-, halpha⟩ := hends c rfl
    rw [scanFrom_cons, scanFrom_cons, step, step, halpha, ht]
    rfl

theorem scanFrom_numeral_append {chars more : List Char} (hmore : ∀ c ∈ more, inNumeral c = true) :
    scanFrom (.numeral chars, done) (more ++ rest) =
      scanFrom (.numeral (more.reverse ++ chars), done) rest := by
  induction more generalizing chars with
  | nil => rfl
  | cons c more ih =>
    obtain ⟨hc, hmore⟩ := List.forall_mem_cons.mp hmore
    rw [List.cons_append, scanFrom_cons, step, hc, if_pos rfl, Option.bind_some, ih hmore,
      List.reverse_cons, List.append_assoc]
    rfl

/-- A numeral is a lexeme. -/
theorem Scans.numeral {more : List Char}
    (hstart : ∀ done, start done c = some (.numeral [c], done))
    (hmore : ∀ c ∈ more, inNumeral c = true) (ht : ofNumeral? (c :: more) = some t)
    (hends : Ends rest) (h : Scans rest ts) : Scans (c :: more ++ rest) (t :: ts) := by
  intro done
  have hread : ofNumeral? (more.reverse ++ [c]).reverse = some t := by simpa using ht
  rw [List.cons_append, scanFrom_cons, step, hstart, Option.bind_some,
    scanFrom_numeral_append hmore, scanFrom_numeral_of_ends hends hread, h, List.reverse_cons,
    List.append_assoc]
  rfl

theorem Scans.null (hends : Ends rest) (h : Scans rest ts) :
    Scans ('n' :: 'u' :: 'l' :: 'l' :: rest) (.null :: ts) := by
  intro done
  have hword : scanFrom (.between, done) ('n' :: 'u' :: 'l' :: 'l' :: rest) =
      scanFrom (.word ['l', 'l', 'u', 'n'], done) rest := rfl
  rw [hword, scanFrom_word_of_ends (t := .null) hends rfl, h, List.reverse_cons, List.append_assoc]
  rfl

theorem Scans.true (hends : Ends rest) (h : Scans rest ts) :
    Scans ('t' :: 'r' :: 'u' :: 'e' :: rest) (.bool Bool.true :: ts) := by
  intro done
  have hword : scanFrom (.between, done) ('t' :: 'r' :: 'u' :: 'e' :: rest) =
      scanFrom (.word ['e', 'u', 'r', 't'], done) rest := rfl
  rw [hword, scanFrom_word_of_ends (t := .bool Bool.true) hends rfl, h, List.reverse_cons,
    List.append_assoc]
  rfl

theorem Scans.false (hends : Ends rest) (h : Scans rest ts) :
    Scans ('f' :: 'a' :: 'l' :: 's' :: 'e' :: rest) (.bool Bool.false :: ts) := by
  intro done
  have hword : scanFrom (.between, done) ('f' :: 'a' :: 'l' :: 's' :: 'e' :: rest) =
      scanFrom (.word ['e', 's', 'l', 'a', 'f'], done) rest := rfl
  rw [hword, scanFrom_word_of_ends (t := .bool Bool.false) hends rfl, h, List.reverse_cons,
    List.append_assoc]
  rfl

/-! ## String literals -/

theorem hexDigit?_hexDigit {n : Nat} (h : n < 16) :
    Quoted.hexDigit? (Quoted.hexDigit n) = some n := by
  have hall : ∀ n : Fin 16, Quoted.hexDigit? (Quoted.hexDigit n.val) = some n.val := by decide
  exact hall ⟨n, h⟩

theorem scanFrom_hex (units : List Unit16) (count code : Nat) {n : Nat} (hn : n < 16) :
    scanFrom (.hex units count code, done) (Quoted.hexDigit n :: rest) =
      if count = 3 then scanFrom (.quoted (Quoted.ofCode (code * 16 + n) :: units), done) rest
      else scanFrom (.hex units (count + 1) (code * 16 + n), done) rest := by
  rw [scanFrom_cons, step, hexDigit?_hexDigit hn]
  by_cases hcount : count = 3 <;> simp [hcount]

/-- A character is escaped by its code. -/
theorem scanFrom_code (units : List Unit16) {c : Char} (hc : c.toNat < 0x20) :
    scanFrom (.quoted units, done) ('\\' :: 'u' :: '0' :: '0' ::
        Quoted.hexDigit (c.toNat / 16) :: Quoted.hexDigit (c.toNat % 16) :: rest) =
      scanFrom (.quoted (.scalar c :: units), done) rest := by
  have hopened (cs : List Char) : scanFrom (.quoted units, done) ('\\' :: 'u' :: '0' :: '0' :: cs) =
      scanFrom (.hex units 2 0, done) cs := rfl
  have hcode : Quoted.ofCode (c.toNat / 16 * 16 + c.toNat % 16) = .scalar c := by
    have hsmall : ¬ (Quoted.isLeading c.toNat || Quoted.isTrailing c.toNat) = Bool.true := by
      simp only [Quoted.isLeading, Quoted.isTrailing, Bool.or_eq_true, Bool.and_eq_true,
        decide_eq_true_eq]
      omega
    rw [Nat.div_add_mod' c.toNat 16, Quoted.ofCode, if_neg hsmall, Char.ofNat_toNat]
  rw [hopened, scanFrom_hex units 2 0 (by omega), if_neg (by decide),
    scanFrom_hex units 3 _ (by omega), if_pos rfl, Nat.zero_mul, Nat.zero_add, hcode]

theorem scanFrom_escaped (units : List Unit16) (c : Char) :
    scanFrom (.quoted units, done) (Quoted.escaped c rest) =
      scanFrom (.quoted (.scalar c :: units), done) rest := by
  unfold Quoted.escaped
  split
  case h_8 hquote hbackslash _ _ _ _ _ =>
    split
    · rename_i hcontrol
      exact scanFrom_code units hcontrol
    · rename_i hcontrol
      rw [scanFrom_cons, step, inQuoted, beq_false_of_ne hquote, beq_false_of_ne hbackslash,
        if_neg hcontrol]
      rfl
  all_goals rfl

theorem scanFrom_escapedAll (units : List Unit16) (s : List Char) :
    scanFrom (.quoted units, done) (Quoted.escapedAll s ('"' :: rest)) =
      scanFrom (.between, .string (units.reverse ++ s.map .scalar) :: done) rest := by
  induction s generalizing units with
  | nil =>
    rw [List.map_nil, List.append_nil]
    rfl
  | cons c s ih =>
    rw [Quoted.escapedAll, scanFrom_escaped, ih, List.reverse_cons, List.append_assoc]
    rfl

theorem Scans.string (s : String) (h : Scans rest ts) :
    Scans (Quoted.write s rest) (.string (Tree.units s) :: ts) := by
  intro done
  have hopened : scanFrom (.between, done) (Quoted.write s rest) =
      scanFrom (.quoted [], done) (Quoted.escapedAll s.toList ('"' :: rest)) := rfl
  rw [hopened, scanFrom_escapedAll, h, List.reverse_cons, List.append_assoc]
  rfl

/-! ## Numbers -/

theorem start_digit (h : c.isDigit = Bool.true) (done : List Token) :
    start done c = some (.numeral [c], done) := by
  have hne (d : Char) (hd : d.isDigit = Bool.false) : (c == d) = Bool.false := by
    refine beq_false_of_ne ?_
    rintro rfl
    cases h.symm.trans hd
  simp [start, isBlank, h, hne ' ' rfl, hne '\n' rfl, hne '\t' rfl, hne '\r' rfl, hne '[' rfl,
    hne ']' rfl, hne '\x7b' rfl, hne '\x7d' rfl, hne ',' rfl, hne ':' rfl, hne '"' rfl]

theorem Scans.number {n : Number} (hn : n.IsWord) (hends : Ends rest) (h : Scans rest ts) :
    Scans (n.text ++ rest) (.number (some n) :: ts) := by
  obtain ⟨m, hread, hvalue⟩ := hn.value?_text
  obtain ⟨c, cs, htext, hfirst, hdigits⟩ := hn.text_eq_cons
  rw [htext] at hread ⊢
  refine h.numeral (fun done => ?_) (fun d hd => ?_) ?_ hends
  · obtain rfl | hc := hfirst
    · rfl
    · exact start_digit hc done
  · simp [inNumeral, hdigits d hd]
  · rw [ofNumeral?, hread, Option.map_some, hvalue]

end Token

/-! ## Values -/

mutual

/-- Every number in the value is an integer of 64 bits. -/
def Integral : Json → Prop
  | .number n => n.IsWord
  | .array xs => IntegralItems xs
  | .object fs => IntegralFields fs
  | _ => True

def IntegralItems : List Json → Prop
  | [] => True
  | v :: vs => Integral v ∧ IntegralItems vs

def IntegralFields : List (String × Json) → Prop
  | [] => True
  | (_, v) :: fs => Integral v ∧ IntegralFields fs

end

mutual

def decideIntegral : (v : Json) → Decidable v.Integral
  | .number n => inferInstanceAs (Decidable n.IsWord)
  | .array xs => decideIntegralItems xs
  | .object fs => decideIntegralFields fs
  | .null | .bool _ | .string _ => .isTrue trivial

def decideIntegralItems : (vs : List Json) → Decidable (IntegralItems vs)
  | [] => .isTrue trivial
  | v :: vs => @instDecidableAnd _ _ (decideIntegral v) (decideIntegralItems vs)

def decideIntegralFields : (fs : List (String × Json)) → Decidable (IntegralFields fs)
  | [] => .isTrue trivial
  | (_, v) :: fs => @instDecidableAnd _ _ (decideIntegral v) (decideIntegralFields fs)

end

instance : DecidablePred Integral := decideIntegral

mutual

/-- The lexemes of a value in front of others, as the writer puts them. -/
def tokens : Json → List Token → List Token
  | .null, rest => .null :: rest
  | .bool b, rest => .bool b :: rest
  | .number n, rest => .number (some n) :: rest
  | .string s, rest => .string (Tree.units s) :: rest
  | .array [], rest => .beginArray :: .endArray :: rest
  | .array (v :: vs), rest => .beginArray :: tokens v (tokenItems vs rest)
  | .object [], rest => .beginObject :: .endObject :: rest
  | .object ((k, v) :: fs), rest =>
    .beginObject :: .string (Tree.units k) :: .colon :: tokens v (tokenFields fs rest)

def tokenItems : List Json → List Token → List Token
  | [], rest => .endArray :: rest
  | v :: vs, rest => .comma :: tokens v (tokenItems vs rest)

def tokenFields : List (String × Json) → List Token → List Token
  | [], rest => .endObject :: rest
  | (k, v) :: fs, rest =>
    .comma :: .string (Tree.units k) :: .colon :: tokens v (tokenFields fs rest)

end

theorem ends_writeItems (vs : List Json) (rest : List Char) : Token.Ends (writeItems vs rest) := by
  cases vs <;> exact .cons rfl rfl

theorem ends_writeFields (fs : List (String × Json)) (rest : List Char) :
    Token.Ends (writeFields fs rest) := by
  cases fs <;> exact .cons rfl rfl

mutual

theorem scans_write : ∀ (v : Json) {rest : List Char} {ts : List Token}, v.Integral →
    Token.Ends rest → Token.Scans rest ts → Token.Scans (v.write rest) (v.tokens ts)
  | .null, _, _, _, hends, h => h.null hends
  | .bool true, _, _, _, hends, h => h.true hends
  | .bool false, _, _, _, hends, h => h.false hends
  | .number _, _, _, hn, hends, h => h.number hn hends
  | .string s, _, _, _, _, h => h.string s
  | .array [], _, _, _, _, h => h.endArray.beginArray
  | .array (v :: vs), _, _, hall, _, h => by
    have hrest := scans_writeItems vs hall.2 h
    have hitems := scans_write v hall.1 (ends_writeItems vs _) hrest
    exact hitems.beginArray
  | .object [], _, _, _, _, h => h.endObject.beginObject
  | .object ((k, v) :: fs), _, _, hall, _, h => by
    have hrest := scans_writeFields fs hall.2 h
    have hvalue := scans_write v hall.1 (ends_writeFields fs _) hrest
    exact (hvalue.colon.string k).beginObject

theorem scans_writeItems : ∀ (vs : List Json) {rest : List Char} {ts : List Token},
    IntegralItems vs → Token.Scans rest ts → Token.Scans (writeItems vs rest) (tokenItems vs ts)
  | [], _, _, _, h => h.endArray
  | v :: vs, _, _, hall, h => by
    have hrest := scans_writeItems vs hall.2 h
    have hitems := scans_write v hall.1 (ends_writeItems vs _) hrest
    exact hitems.comma

theorem scans_writeFields : ∀ (fs : List (String × Json)) {rest : List Char} {ts : List Token},
    IntegralFields fs → Token.Scans rest ts → Token.Scans (writeFields fs rest) (tokenFields fs ts)
  | [], _, _, _, h => h.endObject
  | (k, v) :: fs, _, _, hall, h => by
    have hrest := scans_writeFields fs hall.2 h
    have hvalue := scans_write v hall.1 (ends_writeFields fs _) hrest
    exact (hvalue.colon.string k).comma

end

/-- The lexemes of a written value are read from its text. -/
theorem scan?_write {v : Json} (hv : v.Integral) : Token.scan? (v.write []) = some (v.tokens []) :=
  (scans_write v hv .nil .nil).scan?_eq

end ContentSpaces.Json
