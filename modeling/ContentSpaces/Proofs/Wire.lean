import ContentSpaces.Proofs.Json.Parsing
import ContentSpaces.Wire.Shapes
import Mathlib.Order.Lattice

/-!
# Reading back what was written

A record that was written as an object is opened with its fields under their names. A value stands
for something (`Wire.ReadsAs`) if it is read as that wherever as many containers may open as the
value nests; what a record, a list or an optional field stands for follows from its parts.
-/

namespace ContentSpaces

open Json (Tree)

namespace Json

theorem Tree.ofItems_eq_map (vs : List Json) : Tree.ofItems vs = vs.map Tree.ofJson := by
  induction vs with
  | nil => rfl
  | cons v vs ih => rw [ofItems, ih, List.map_cons]

@[simp]
theorem depth_string (s : String) : (Json.string s).depth = 0 := rfl

@[simp]
theorem depth_ofNat (n : Nat) : (ofNat n).depth = 0 := rfl

theorem depthItems_map_le {α : Type} {write : α → Json} {as : List α} {d : Nat} :
    depthItems (as.map write) ≤ d ↔ ∀ a ∈ as, (write a).depth ≤ d := by
  induction as with
  | nil => simp [depthItems]
  | cons a as ih => rw [List.map_cons, depthItems, Nat.max_le, ih, List.forall_mem_cons]

theorem integralItems_iff {vs : List Json} : IntegralItems vs ↔ ∀ v ∈ vs, v.Integral := by
  induction vs with
  | nil => simp [IntegralItems]
  | cons v vs ih => rw [IntegralItems, ih, List.forall_mem_cons]

end Json

namespace Wire.Record

variable {names : List String} {fs : Json.Fields}

/-- The fields of a written object are found under their names, after those found before. -/
theorem known?_ofFields (found : List (String × Tree)) (hknown : ∀ e ∈ fs, e.1 ∈ names)
    (hdistinct : (fs.map Prod.fst).Nodup) (hnew : ∀ e ∈ fs, Entries.get? e.1 found = none) :
    ∃ found', known? names (Tree.ofFields fs) found = some found' ∧ ∀ name,
      Entries.get? name found' =
        ((Entries.get? name fs).map Tree.ofJson).or (Entries.get? name found) := by
  induction fs generalizing found with
  | nil => exact ⟨found, rfl, fun _ => rfl⟩
  | cons e fs ih =>
    obtain ⟨k, v⟩ := e
    obtain ⟨hk, hrest⟩ := List.forall_mem_cons.mp hknown
    obtain ⟨hfresh, hnewRest⟩ := List.forall_mem_cons.mp hnew
    obtain ⟨hother, hdistinct⟩ := List.nodup_cons.mp hdistinct
    have hne : ∀ e ∈ fs, e.1 ≠ k := by
      intro e he heq
      have hmem : e.1 ∈ fs.map Prod.fst := List.mem_map_of_mem he
      exact hother (heq ▸ hmem)
    have hnext : ∀ e ∈ fs, Entries.get? e.1 ((k, Tree.ofJson v) :: found) = none := by
      intro e he
      rw [Entries.get?, if_neg (hne e he)]
      exact hnewRest e he
    obtain ⟨found', hfound', hget⟩ := ih _ hrest hdistinct hnext
    refine ⟨found', ?_, fun name => ?_⟩
    · rw [Tree.ofFields, known?, Tree.decodeString_units]
      have hcontains : Entries.contains k found = false := by
        rw [Entries.contains, hfresh]
        rfl
      simp [hk, hcontains, hfound']
    · rw [hget, Entries.get?, Entries.get?]
      split
      · rename_i hname
        have hnone : Entries.get? name fs = none :=
          Entries.get?_eq_none_of_forall_ne fun e he => hname ▸ hne e he
        simp [hnone]
      · rfl

/-- A written object is opened as a record of its fields. -/
theorem read?_object (names : List String) (fs : Json.Fields) (hknown : ∀ e ∈ fs, e.1 ∈ names)
    (hdistinct : (fs.map Prod.fst).Nodup) (depth : Nat) :
    ∃ r, read? names (depth + 1) (Tree.ofJson (.object fs)) = some r ∧
      r.depth = depth ∧ ∀ name, Entries.get? name r.fields =
        (Entries.get? name fs).map Tree.ofJson := by
  obtain ⟨found, hfound, hget⟩ := known?_ofFields [] hknown hdistinct fun _ _ => rfl
  refine ⟨⟨depth, found⟩, ?_, rfl, fun name => ?_⟩
  · rw [Tree.ofJson, read?, hfound, Option.map_some]
  · rw [hget, Entries.get?, Option.or_none]

end Wire.Record

namespace Wire

variable {α : Type} {read : Decoder α} {v w : Json} {a b : α}

@[simp]
theorem bind_ite_some {α β : Type} {p : Prop} [Decidable p] (a : α) (f : α → Option β) :
    (if p then some a else none).bind f = if p then f a else none := by
  split <;> rfl

/-- What is read from the text of a value is what is read from the value. -/
theorem ofText?_compact (hv : v.Integral) (read : Decoder α) :
    ofText? read v.compact = ofJson? read v := by
  rw [ofText?, Json.compact, String.toList_ofList, Tree.scan?_write hv]
  rfl

/-- A value stands for what is read from it once as many containers may open as it nests. -/
def ReadsAs (read : Decoder α) (v : Json) (a : α) : Prop :=
  ∀ depth, read depth (Tree.ofJson v) = if v.depth ≤ depth then some a else none

theorem ReadsAs.unique (h : ReadsAs read v a) (h' : ReadsAs read v b) : a = b := by
  have hboth := (h v.depth).symm.trans (h' v.depth)
  rw [if_pos le_rfl, if_pos le_rfl] at hboth
  exact Option.some.inj hboth

/-- A value without containers inside reads the same at every depth. -/
theorem readsAs_of_forall (hflat : v.depth = 0)
    (h : ∀ depth, read depth (Tree.ofJson v) = some a) : ReadsAs read v a := by
  intro depth
  rw [h, if_pos (by omega)]

@[simp]
theorem text_string (depth : Nat) (s : String) : text depth (Tree.ofJson (.string s)) = some s :=
  Tree.decodeString_units s

@[simp]
theorem natural_ofNat (depth n : Nat) : natural depth (Tree.ofJson (.ofNat n)) = some n := by
  simp only [natural, Tree.ofJson, Json.ofNat]
  rfl

theorem oneOf_string (named : String → Option α) (depth : Nat) (s : String) :
    oneOf named depth (Tree.ofJson (.string s)) = named s := by
  rw [Tree.ofJson, oneOf, Tree.decodeString_units, Option.bind_some]

theorem readsAs_json (hv : v.Ordered) : ReadsAs json v v := fun depth =>
  Tree.value?_ofJson v depth hv

theorem optional_of_ne_null (hv : v ≠ .null) (depth : Nat) :
    optional read depth (Tree.ofJson v) = (read depth (Tree.ofJson v)).map some := by
  cases v with
  | null => exact absurd rfl hv
  | _ => rfl

theorem ReadsAs.present (h : ReadsAs read v a) (hv : v ≠ .null) :
    ReadsAs (optional read) v (some a) := by
  intro depth
  rw [optional_of_ne_null hv, h depth, Option.map_if]

/-- Absence may be written as null. -/
theorem readsAs_optional {write : α → Json} {found : Option α}
    (h : ∀ a, found = some a → ReadsAs read (write a) a ∧ write a ≠ .null) :
    ReadsAs (optional read) (found.elim .null write) found := by
  cases found with
  | none => exact readsAs_of_forall rfl fun _ => rfl
  | some a => exact (h a rfl).1.present (h a rfl).2

/-- A list is read if each of its items is. -/
theorem mapM_eq_ite {α β : Type} {read : α → Option β} {write : β → α} {fits : β → Prop}
    [DecidablePred fits] {bs : List β}
    (h : ∀ b ∈ bs, read (write b) = if fits b then some b else none) :
    (bs.map write).mapM read = if ∀ b ∈ bs, fits b then some bs else none := by
  induction bs with
  | nil => rfl
  | cons b bs ih =>
    obtain ⟨hb, hbs⟩ := List.forall_mem_cons.mp h
    rw [List.map_cons, List.mapM_cons, hb, ih hbs]
    by_cases hfits : fits b
    · by_cases hrest : ∀ b ∈ bs, fits b
      · rw [if_pos hfits, if_pos hrest, if_pos (List.forall_mem_cons.mpr ⟨hfits, hrest⟩)]
        rfl
      · rw [if_pos hfits, if_neg hrest,
          if_neg fun hall => hrest (List.forall_mem_cons.mp hall).2]
        rfl
    · rw [if_neg hfits, if_neg fun hall => hfits (List.forall_mem_cons.mp hall).1]
      rfl

theorem readsAs_list {write : α → Json} {as : List α}
    (h : ∀ a ∈ as, ReadsAs read (write a) a) :
    ReadsAs (list read) (.array (as.map write)) as := by
  intro depth
  cases depth with
  | zero =>
    rw [if_neg (by rw [Json.depth]; omega)]
    rfl
  | succ depth =>
    have hitems : ((as.map write).map Tree.ofJson).mapM (read depth) =
        if ∀ a ∈ as, (write a).depth ≤ depth then some as else none := by
      rw [List.map_map]
      exact mapM_eq_ite fun a ha => h a ha depth
    rw [Tree.ofJson, Tree.ofItems_eq_map, list, hitems]
    refine if_congr ?_ rfl rfl
    rw [Json.depth, Nat.one_add, Nat.succ_le_succ_iff, Json.depthItems_map_le]

/-- A record is read if its decoder makes something of the fields that were written. -/
theorem readsAs_record {names : List String} {fs : Json.Fields} {make : Record → Option α}
    (hread : ∀ depth t, read depth t = (Record.read? names depth t).bind make)
    (hknown : ∀ e ∈ fs, e.1 ∈ names) (hdistinct : (fs.map Prod.fst).Nodup)
    (hmake : ∀ r : Record, (∀ name, Entries.get? name r.fields =
      (Entries.get? name fs).map Tree.ofJson) →
        make r = if Json.depthFields fs ≤ r.depth then some a else none) :
    ReadsAs read (.object fs) a := by
  intro depth
  rw [hread]
  cases depth with
  | zero =>
    rw [if_neg (by rw [Json.depth]; omega)]
    rfl
  | succ depth =>
    obtain ⟨r, hopened, rfl, hfields⟩ := Record.read?_object names fs hknown hdistinct depth
    rw [hopened, Option.bind_some, hmake r hfields]
    refine if_congr ?_ rfl rfl
    rw [Json.depth, Nat.one_add, Nat.succ_le_succ_iff]

end Wire

open Wire

@[simp]
theorem Kind.depth_toJson (kind : Kind) : kind.toJson.depth = 0 := rfl

@[simp]
theorem Kind.decode_toJson (depth : Nat) (kind : Kind) :
    Kind.decode depth (Tree.ofJson kind.toJson) = some kind := by
  refine (oneOf_string Kind.ofWord? depth kind.name).trans ?_
  cases kind <;> decide

@[simp]
theorem Space.depth_toJson (space : Space) : space.toJson.depth = 0 := rfl

@[simp]
theorem Space.decode_toJson (depth : Nat) (space : Space) :
    Space.decode depth (Tree.ofJson space.toJson) = some space := by
  refine (oneOf_string Space.ofWord? depth space.name).trans ?_
  cases space <;> rfl

namespace Resource

theorem readsAs_digestJson (digest : String) :
    ReadsAs decodeDigest (digestJson digest) digest := by
  refine readsAs_record (fun _ _ => rfl) (by simp) (by simp) fun record hfields => ?_
  simp [Record.required, hfields, Entries.get?, Json.depthFields]

theorem readsAs_tagJson (r : Resource) : ReadsAs decodeTag r.tagJson (r.space, r.aggregate) := by
  unfold tagJson
  cases r.aggregate with
  | none =>
    refine readsAs_record (fun _ _ => rfl) (by simp) (by simp) fun record hfields => ?_
    simp [Record.required, Record.withDefault, hfields, Entries.get?, Json.depthFields]
  | some digest =>
    refine readsAs_record (fun _ _ => rfl) (by simp) (by simp) fun record hfields => ?_
    have hpresent : digestJson digest ≠ .null := by simp [digestJson]
    have hdigest := (readsAs_digestJson digest).present hpresent record.depth
    simp [Record.required, Record.withDefault, hfields, Entries.get?, Json.depthFields, hdigest]

/-- A stored resource reads back. -/
theorem readsAs_toJson {r : Resource} (h : r.document.Ordered) : ReadsAs decode r.toJson r := by
  refine readsAs_record (fun _ _ => rfl) (by simp) (by simp) fun record hfields => ?_
  have hdocument := readsAs_json h record.depth
  have htag := readsAs_tagJson r record.depth
  have hdigest := readsAs_digestJson r.hash record.depth
  simp [Record.required, hfields, Entries.get?, Json.depthFields, hdocument, htag, hdigest,
    ← ite_and, and_left_comm]

theorem decode_toJson (depth : Nat) (r : Resource) (hordered : r.document.Ordered) :
    decode (depth + 3) (Tree.ofJson r.toJson) =
      if r.document.depth ≤ depth + 2 then some r else none := by
  rw [readsAs_toJson hordered]
  refine if_congr ?_ rfl rfl
  have htag : r.tagJson.depth ≤ 2 := by
    unfold tagJson
    cases r.aggregate <;> simp [digestJson, Json.depth, Json.depthFields]
  simp only [toJson, digestJson, Json.depth, Json.depthFields, Kind.depth_toJson]
  omega

end Resource

end ContentSpaces
