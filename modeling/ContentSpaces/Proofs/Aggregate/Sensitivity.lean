import ContentSpaces.Proofs.Aggregate
import Mathlib.Data.List.Basic

/-!
# What aggregates are sensitive to

The digests of an aggregate are hashed one after the other without separators. As all are of one
length, the bytes give them away one by one. So the bytes of a container change with every resource
that the container covers and with no other, although a changed integration may bring other children
along and shift all that follows.
-/

namespace ContentSpaces

section Lists

variable {α β : Type} {R : List α → List α → Prop} {l l' m m' : List α}

/-- A difference between lists that survives whatever stands before them, and whatever differs or
not after them. -/
structure Spreads (R : List α → List α → Prop) : Prop where
  prepend {l l' : List α} (w : List α) : R l l' → R (w ++ l) (w ++ l')
  append {l l' m m' : List α} : R l l' → m = m' ∨ R m m' → R (l ++ m) (l' ++ m')

/-- The lists differ within their common length. -/
def Branch (l l' : List α) : Prop := ∀ m m', l ++ m ≠ l' ++ m'

def Longer (l l' : List α) : Prop := l'.length < l.length

theorem spreads_branch : Spreads (Branch (α := α)) where
  prepend w h m m' heq := by
    rw [List.append_assoc, List.append_assoc] at heq
    exact h m m' (List.append_cancel_left heq)
  append h _ r r' heq := by
    rw [List.append_assoc, List.append_assoc] at heq
    exact h _ _ heq

theorem spreads_longer : Spreads (Longer (α := α)) where
  prepend w h := by
    unfold Longer at h ⊢
    rw [List.length_append, List.length_append]
    omega
  append h hm := by
    unfold Longer at h hm ⊢
    have hlength : _ ≤ _ := hm.elim (fun heq => Nat.le_of_eq (congrArg List.length heq.symm)) Nat.le_of_lt
    rw [List.length_append, List.length_append]
    omega

theorem branch_cons {a a' : α} (h : a ≠ a') (l l' : List α) : Branch (a :: l) (a' :: l') :=
  fun _ _ heq => h (List.cons.inj heq).1

theorem Branch.ne (h : Branch l l') : l ≠ l' := by
  have hnil := h [] []
  rwa [List.append_nil, List.append_nil] at hnil

theorem Longer.ne (h : Longer l l') : l ≠ l' := by
  rintro rfl
  exact Nat.lt_irrefl _ h

theorem Spreads.flatMap_or (h : Spreads R) {f g : β → List α} {xs : List β}
    (hparts : ∀ x ∈ xs, f x = g x ∨ R (f x) (g x)) :
    xs.flatMap f = xs.flatMap g ∨ R (xs.flatMap f) (xs.flatMap g) := by
  induction xs with
  | nil => exact .inl rfl
  | cons x xs ih =>
    obtain ⟨hx, hrest⟩ := List.forall_mem_cons.mp hparts
    rw [List.flatMap_cons, List.flatMap_cons]
    rcases hx with hx | hx
    · rw [hx]
      exact (ih hrest).imp (congrArg _) (h.prepend _)
    · exact .inr (h.append hx (ih hrest))

theorem Spreads.flatMap (h : Spreads R) {f g : β → List α} {xs : List β}
    (hparts : ∀ x ∈ xs, f x = g x ∨ R (f x) (g x)) {x : β} (hx : x ∈ xs) (hdiffer : R (f x) (g x)) :
    R (xs.flatMap f) (xs.flatMap g) := by
  obtain ⟨before, after, rfl⟩ := List.append_of_mem hx
  obtain ⟨hbefore, hrest⟩ := List.forall_mem_append.mp hparts
  have hfrom : R ((x :: after).flatMap f) ((x :: after).flatMap g) :=
    h.append hdiffer (h.flatMap_or (List.forall_mem_cons.mp hrest).2)
  rw [List.flatMap_append, List.flatMap_append]
  -- A part before `x` may differ as well, and then it is the first difference that counts.
  rcases h.flatMap_or hbefore with heq | hearlier
  · rw [heq]
    exact h.prepend _ hfrom
  · exact h.append hearlier (.inr hfrom)

end Lists

namespace Digest

theorem joined_injective {n : Nat} {ds ds' : List String} (hpos : 0 < n)
    (h : ∀ d ∈ ds, d.length = n) (h' : ∀ d ∈ ds', d.length = n) (heq : joined ds = joined ds') :
    ds = ds' := by
  have hchars := congrArg String.toList heq
  rw [joined, joined, String.toList_join, String.toList_join] at hchars
  clear heq
  induction ds generalizing ds' with
  | nil =>
    cases ds' with
    | nil => rfl
    | cons d' ds' =>
      have hlength := congrArg List.length hchars
      have hd' := h' d' List.mem_cons_self
      simp only [List.flatMap_nil, List.flatMap_cons, List.length_nil, List.length_append,
        String.length_toList] at hlength
      omega
  | cons d ds ih =>
    obtain ⟨hd, hds⟩ := List.forall_mem_cons.mp h
    cases ds' with
    | nil =>
      have hlength := congrArg List.length hchars
      simp only [List.flatMap_nil, List.flatMap_cons, List.length_nil, List.length_append,
        String.length_toList] at hlength
      omega
    | cons d' ds' =>
      obtain ⟨hd', hds'⟩ := List.forall_mem_cons.mp h'
      rw [List.flatMap_cons, List.flatMap_cons] at hchars
      obtain ⟨hfirst, hrest⟩ := List.append_inj hchars
        (by rw [String.length_toList, String.length_toList, hd, hd'])
      rw [String.toList_inj.mp hfirst, ih hds hds' hrest]

end Digest

namespace Coverage

theorem digests_join (cs : List Coverage) : (join cs).digests = cs.flatMap digests := by
  induction cs with
  | nil => rfl
  | cons c cs ih => exact congrArg (c.digests ++ ·) ih

end Coverage

/-- An address is that of a child in one of the lists that count for the aggregate of an integration. -/
def Resource.Parents (integration : Resource) (a : Address) : Prop :=
  ∃ list ∈ RefList.hashOrder, ∃ id ∈ integration.references list,
    a = ⟨list.childKind, integration.space, id⟩

theorem Resource.Parents.ne_integration {i : Resource} {a : Address} (h : i.Parents a)
    {space : Space} {id : String} : (⟨.integration, space, id⟩ : Address) ≠ a := by
  obtain ⟨list, hlist, child, -, rfl⟩ := h
  intro heq
  have hkind : Kind.integration = list.childKind := congrArg Address.kind heq
  cases list <;> revert hlist hkind <;> decide

namespace Content

variable {c c' : Content} {key : Address} {i p p' : Resource}

def digestAt (c : Content) (a : Address) : List String := ((c.get? a).map Resource.hash).toList

def memberAt (c : Content) (a : Address) : List String :=
  ((c.get? a).map fun i => (c.coverIntegration i).digests).getD []

theorem digests_coverIntegration (c : Content) (i : Resource) : (c.coverIntegration i).digests =
    i.hash :: RefList.hashOrder.flatMap fun list =>
      (i.references list).flatMap fun id => c.digestAt ⟨list.childKind, i.space, id⟩ := by
  have hchild (list : RefList) (id : String) :
      (c.coverChild i list id).digests = c.digestAt ⟨list.childKind, i.space, id⟩ := by
    unfold coverChild digestAt
    cases c.get? ⟨list.childKind, i.space, id⟩ <;> rfl
  show i.hash :: (Coverage.join (RefList.hashOrder.map (c.coverList i))).digests = _
  rw [Coverage.digests_join, List.flatMap_map]
  congr 2
  funext list
  rw [coverList, Coverage.digests_join, List.flatMap_map]
  congr 1
  funext id
  exact hchild list id

theorem digests_coverPolicy (c : Content) (p : Resource) : (c.coverPolicy p).digests =
    p.hash :: (p.references .integrations).flatMap fun id =>
      c.memberAt ⟨.integration, p.space, id⟩ := by
  have hmember (id : String) :
      (c.coverMember p id).digests = c.memberAt ⟨.integration, p.space, id⟩ := by
    unfold coverMember memberAt
    cases c.get? ⟨.integration, p.space, id⟩ <;> rfl
  show p.hash :: (Coverage.join ((p.references .integrations).map (c.coverMember p))).digests = _
  rw [Coverage.digests_join, List.flatMap_map]
  congr 2
  funext id
  exact hmember id

/-- The aggregate of a policy covers the policy, the integrations that it lists and, of those that are
there, the children. -/
inductive Covers (c : Content) (p : Resource) : Address → Prop
  | self : Covers c p p.address
  | member {id : String} (hlisted : id ∈ p.references .integrations) :
      Covers c p ⟨.integration, p.space, id⟩
  | child {id : String} {i : Resource} {a : Address} (hlisted : id ∈ p.references .integrations)
      (hi : c.get? ⟨.integration, p.space, id⟩ = some i) (ha : i.Parents a) : Covers c p a

/-- One address sets the contents apart: there is a resource in one of them only, or its digests
differ. -/
structure Apart (key : Address) (c c' : Content) : Prop where
  elsewhere : ∀ a, a ≠ key → c'.get? a = c.get? a
  there : (c.get? key).map Resource.hash ≠ (c'.get? key).map Resource.hash

theorem Apart.symm (h : Apart key c c') : Apart key c' c :=
  ⟨fun a ha => (h.elsewhere a ha).symm, h.there.symm⟩

structure Shows (R : List String → List String → Prop) (key : Address) (c c' : Content) : Prop where
  spreads : Spreads R
  elsewhere : ∀ a, a ≠ key → c'.get? a = c.get? a
  digest : R (c.digestAt key) (c'.digestAt key)
  member : R (c.memberAt key) (c'.memberAt key)

/-- A changed digest is a difference in its place, whatever comes with it. A resource that is there
in one content only makes what it contributes to longer. -/
theorem Apart.shows (h : Apart key c c') :
    Shows Branch key c c' ∨ Shows Longer key c c' ∨ Shows Longer key c' c := by
  have hthere := h.there
  cases hc : c.get? key with
  | none =>
    cases hc' : c'.get? key with
    | none => exact absurd (by rw [hc, hc']) hthere
    | some r' =>
      refine .inr (.inr ⟨spreads_longer, h.symm.elsewhere, ?_, ?_⟩)
      · simp [digestAt, Longer, hc, hc']
      · simp [memberAt, Longer, hc, hc', digests_coverIntegration]
  | some r =>
    cases hc' : c'.get? key with
    | none =>
      refine .inr (.inl ⟨spreads_longer, h.elsewhere, ?_, ?_⟩)
      · simp [digestAt, Longer, hc, hc']
      · simp [memberAt, Longer, hc, hc', digests_coverIntegration]
    | some r' =>
      have hhash : r.hash ≠ r'.hash := by
        rw [hc, hc'] at hthere
        exact fun heq => hthere (congrArg some heq)
      refine .inl ⟨spreads_branch, h.elsewhere, ?_, ?_⟩
      · simp only [digestAt, hc, hc']
        exact branch_cons hhash _ _
      · simp only [memberAt, hc, hc', Option.map_some, Option.getD_some, digests_coverIntegration]
        exact branch_cons hhash _ _

section Shows

variable {R : List String → List String → Prop} (h : Shows R key c c')
include h

theorem Shows.digestAt_or (a : Address) :
    c.digestAt a = c'.digestAt a ∨ R (c.digestAt a) (c'.digestAt a) := by
  by_cases ha : a = key
  · exact .inr (ha ▸ h.digest)
  · exact .inl (by rw [digestAt, digestAt, h.elsewhere a ha])

theorem Shows.coverIntegration_or (i : Resource) :
    (c.coverIntegration i).digests = (c'.coverIntegration i).digests ∨
      R (c.coverIntegration i).digests (c'.coverIntegration i).digests := by
  rw [digests_coverIntegration, digests_coverIntegration]
  refine (h.spreads.flatMap_or fun list _ => ?_).imp (congrArg _) (h.spreads.prepend [i.hash])
  exact h.spreads.flatMap_or fun id _ => h.digestAt_or _

theorem Shows.coverIntegration (hparents : i.Parents key) :
    R (c.coverIntegration i).digests (c'.coverIntegration i).digests := by
  obtain ⟨list, hlist, id, hid, hkey⟩ := hparents
  rw [digests_coverIntegration, digests_coverIntegration]
  refine h.spreads.prepend [i.hash] (h.spreads.flatMap (fun list _ => ?_) hlist ?_)
  · exact h.spreads.flatMap_or fun id _ => h.digestAt_or _
  · refine h.spreads.flatMap (fun id _ => h.digestAt_or _) hid ?_
    rw [← hkey]
    exact h.digest

theorem Shows.memberAt_or (a : Address) :
    c.memberAt a = c'.memberAt a ∨ R (c.memberAt a) (c'.memberAt a) := by
  by_cases ha : a = key
  · exact .inr (ha ▸ h.member)
  · rw [memberAt, memberAt, h.elsewhere a ha]
    cases c.get? a with
    | none => exact .inl rfl
    | some i => exact h.coverIntegration_or i

theorem Shows.coverPolicy (hcovers : c.Covers p key) (hself : key ≠ p.address) :
    R (c.coverPolicy p).digests (c'.coverPolicy p).digests := by
  rw [digests_coverPolicy, digests_coverPolicy]
  cases hcovers with
  | self => exact absurd rfl hself
  | member hlisted =>
    exact h.spreads.prepend [p.hash]
      (h.spreads.flatMap (fun id _ => h.memberAt_or _) hlisted h.member)
  | child hlisted hi hparents =>
    -- The key is no integration, so the one that lists it is the same in both contents.
    refine h.spreads.prepend [p.hash] (h.spreads.flatMap (fun id _ => h.memberAt_or _) hlisted ?_)
    rw [memberAt, memberAt, h.elsewhere _ hparents.ne_integration, hi]
    exact h.coverIntegration hparents

end Shows

section Unmoved

variable (h : ∀ a, a ≠ key → c'.get? a = c.get? a)
include h

theorem coverIntegration_eq_of_not_parents (hnot : ¬ i.Parents key) :
    (c'.coverIntegration i).digests = (c.coverIntegration i).digests := by
  rw [digests_coverIntegration, digests_coverIntegration]
  congr 1
  refine List.flatMap_congr fun list hlist => List.flatMap_congr fun id hid => ?_
  have hother : (⟨list.childKind, i.space, id⟩ : Address) ≠ key :=
    fun heq => hnot ⟨list, hlist, id, hid, heq.symm⟩
  rw [digestAt, digestAt, h _ hother]

theorem coverPolicy_eq_of_not_covers (hnot : ¬ c.Covers p key) :
    (c'.coverPolicy p).digests = (c.coverPolicy p).digests := by
  rw [digests_coverPolicy, digests_coverPolicy]
  congr 1
  refine List.flatMap_congr fun id hid => ?_
  have hother : (⟨.integration, p.space, id⟩ : Address) ≠ key := by
    rintro rfl
    exact hnot (.member hid)
  rw [memberAt, memberAt, h _ hother]
  cases hi : c.get? ⟨.integration, p.space, id⟩ with
  | none => rfl
  | some i => exact coverIntegration_eq_of_not_parents h fun hparents => hnot (.child hid hi hparents)

theorem Covers.congr (hcovers : c.Covers p key) : c'.Covers p key := by
  cases hcovers with
  | self => exact .self
  | member hlisted => exact .member hlisted
  | child hlisted hi hparents =>
    exact .child hlisted ((h _ hparents.ne_integration).trans hi) hparents

end Unmoved

theorem Apart.ne (h : Apart key c c') {l l' : List String} (hto : ∀ R, Shows R key c c' → R l l')
    (hfrom : ∀ R, Shows R key c' c → R l' l) : l ≠ l' := by
  obtain hbranch | hlonger | hlonger := h.shows
  · exact (hto _ hbranch).ne
  · exact (hto _ hlonger).ne
  · exact (hfrom _ hlonger).ne.symm

theorem Apart.eq_of_ne (h : Apart key c c') {r r' : Resource} {a : Address}
    (hr : c.get? a = some r) (hr' : c'.get? a = some r') (ha : a ≠ key) : r' = r := by
  rw [h.elsewhere a ha, hr] at hr'
  exact (Option.some.inj hr').symm

theorem Apart.hash_ne (h : Apart key c c') {r r' : Resource} (hr : c.get? key = some r)
    (hr' : c'.get? key = some r') : r.hash ≠ r'.hash := by
  have hthere := h.there
  rw [hr, hr'] at hthere
  exact fun heq => hthere (congrArg some heq)

theorem Apart.coverIntegration_ne_iff (h : Apart key c c') {a : Address} {i' : Resource}
    (hi : c.get? a = some i) (hi' : c'.get? a = some i') :
    (c.coverIntegration i).digests ≠ (c'.coverIntegration i').digests ↔
      key = a ∨ i.Parents key ∨ i'.Parents key := by
  by_cases hself : key = a
  · subst hself
    refine ⟨fun _ => .inl rfl, fun _ heq => ?_⟩
    rw [digests_coverIntegration, digests_coverIntegration] at heq
    exact h.hash_ne hi hi' (List.cons.inj heq).1
  · obtain rfl := h.eq_of_ne hi hi' (Ne.symm hself)
    constructor
    · intro hne
      apply Classical.byContradiction
      intro hnot
      rw [not_or, not_or] at hnot
      exact hne (coverIntegration_eq_of_not_parents h.elsewhere hnot.2.1).symm
    · intro hcovered
      have hparents := (hcovered.resolve_left hself).elim id id
      exact h.ne (fun _ hshows => hshows.coverIntegration hparents) fun _ hshows =>
        hshows.coverIntegration hparents

theorem Apart.coverPolicy_ne_iff (h : Apart key c c') (hp : c.get? p.address = some p)
    (hp' : c'.get? p.address = some p') (haddress : p'.address = p.address) :
    (c.coverPolicy p).digests ≠ (c'.coverPolicy p').digests ↔
      c.Covers p key ∨ c'.Covers p' key := by
  by_cases hself : key = p.address
  · subst hself
    refine ⟨fun _ => .inl .self, fun _ heq => ?_⟩
    rw [digests_coverPolicy, digests_coverPolicy] at heq
    exact h.hash_ne hp hp' (List.cons.inj heq).1
  · obtain rfl := h.eq_of_ne hp hp' (Ne.symm hself)
    constructor
    · intro hne
      apply Classical.byContradiction
      intro hnot
      rw [not_or] at hnot
      exact hne (coverPolicy_eq_of_not_covers h.elsewhere hnot.1).symm
    · intro hcovered
      have hcovers : c.Covers p' key := hcovered.elim id fun hthere => hthere.congr h.symm.elsewhere
      have hcovers' : c'.Covers p' key := hcovers.congr h.elsewhere
      exact h.ne (fun _ hshows => hshows.coverPolicy hcovers hself) fun _ hshows =>
        hshows.coverPolicy hcovers' hself

/-- All digests of documents are of the length of a SHA-256 in hexadecimal. -/
def FullLength (c : Content) : Prop := ∀ a r, c.get? a = some r → r.hash.length = 64

theorem FullLength.empty : FullLength .empty := by
  intro a r hr
  rw [Table.get?_empty] at hr
  cases hr

theorem FullLength.file (hc : c.FullLength) {r : Resource} (hr : r.hash.length = 64) :
    (c.file r).FullLength := by
  intro a r' hr'
  rw [get?_file] at hr'
  split at hr'
  · cases hr'
    exact hr
  · exact hc a r' hr'

theorem FullLength.coverIntegration (hc : c.FullLength) {a : Address} (hi : c.get? a = some i) :
    ∀ d ∈ (c.coverIntegration i).digests, d.length = 64 := by
  rw [digests_coverIntegration, List.forall_mem_cons]
  refine ⟨hc a i hi, fun d hd => ?_⟩
  obtain ⟨list, -, hd⟩ := List.mem_flatMap.mp hd
  obtain ⟨id, -, hd⟩ := List.mem_flatMap.mp hd
  obtain ⟨r, hr, rfl⟩ := Option.map_eq_some_iff.mp (Option.mem_toList.mp hd)
  exact hc _ r hr

theorem FullLength.coverPolicy (hc : c.FullLength) {a : Address} (hp : c.get? a = some p) :
    ∀ d ∈ (c.coverPolicy p).digests, d.length = 64 := by
  rw [digests_coverPolicy, List.forall_mem_cons]
  refine ⟨hc a p hp, fun d hd => ?_⟩
  obtain ⟨id, -, hd⟩ := List.mem_flatMap.mp hd
  unfold memberAt at hd
  cases hi : c.get? ⟨.integration, p.space, id⟩ with
  | none => simp [hi] at hd
  | some i =>
    rw [hi] at hd
    exact hc.coverIntegration hi d hd

end Content

namespace Store

open Content

variable {s s' : Store} {key : Address}

/-- The bytes that are hashed for an aggregate over what is covered. -/
def hashed? (cover : StoreM Coverage) (s : Store) : Option ByteArray :=
  match cover s with
  | .ok coverage _ => some (Digest.joined coverage.digests).toUTF8
  | .error _ _ => none

theorem hashed?_eq {cover : StoreM Coverage} {f : Content → Coverage} (hreads : Reads cover f)
    (hanswers : Answers cover) (hup : s.Up) :
    hashed? cover s = some (Digest.joined (f s.content).digests).toUTF8 := by
  unfold hashed?
  cases hrun : cover s with
  | ok coverage s' => rw [((hreads s.content).of_ok rfl hrun).1]
  | error e s' => exact (hanswers.of_error hup hrun).elim

theorem bytes_ne_iff {ds ds' : List String} (h : ∀ d ∈ ds, d.length = 64)
    (h' : ∀ d ∈ ds', d.length = 64) :
    (Digest.joined ds).toUTF8 ≠ (Digest.joined ds').toUTF8 ↔ ds ≠ ds' := by
  refine not_congr ⟨fun heq => ?_, fun heq => heq ▸ rfl⟩
  exact Digest.joined_injective (by decide) h h' (String.toByteArray_inj.mp heq)

/-- On two stores that one resource sets apart, the bytes hashed for a policy differ exactly if the
policy covers the resource, and the bytes hashed for an integration differ exactly if the resource is
the integration or one of its children. -/
theorem hashed_ne_iff_covered (hup : s.Up) (hup' : s'.Up) (hfiled : s.content.Filed)
    (hfiled' : s'.content.Filed) (hlength : s.content.FullLength) (hlength' : s'.content.FullLength)
    (hapart : Apart key s.content s'.content) (space : Space) (id : String) :
    (∀ p p', s.content.get? ⟨.policy, space, id⟩ = some p →
      s'.content.get? ⟨.policy, space, id⟩ = some p' →
      ∃ bytes bytes', hashed? (coverPolicy p) s = some bytes ∧
        hashed? (coverPolicy p') s' = some bytes' ∧
        (bytes ≠ bytes' ↔ s.content.Covers p key ∨ s'.content.Covers p' key)) ∧
    ∀ i i', s.content.get? ⟨.integration, space, id⟩ = some i →
      s'.content.get? ⟨.integration, space, id⟩ = some i' →
      ∃ bytes bytes', hashed? (coverIntegration i) s = some bytes ∧
        hashed? (coverIntegration i') s' = some bytes' ∧
        (bytes ≠ bytes' ↔ key = ⟨.integration, space, id⟩ ∨ i.Parents key ∨ i'.Parents key) := by
  constructor
  · intro p p' hp hp'
    refine ⟨_, _, hashed?_eq (reads_coverPolicy p) (answers_coverPolicy p) hup,
      hashed?_eq (reads_coverPolicy p') (answers_coverPolicy p') hup', ?_⟩
    rw [bytes_ne_iff (hlength.coverPolicy hp) (hlength'.coverPolicy hp')]
    have haddress := hfiled _ _ hp
    have haddress' := hfiled' _ _ hp'
    refine hapart.coverPolicy_ne_iff ?_ ?_ (haddress'.trans haddress.symm)
    · rw [haddress, hp]
    · rw [haddress, hp']
  · intro i i' hi hi'
    refine ⟨_, _, hashed?_eq (reads_coverIntegration i) (answers_coverIntegration i) hup,
      hashed?_eq (reads_coverIntegration i') (answers_coverIntegration i') hup', ?_⟩
    rw [bytes_ne_iff (hlength.coverIntegration hi) (hlength'.coverIntegration hi')]
    exact hapart.coverIntegration_ne_iff hi hi'

section Trial

def digestOf (letter : Char) : String := .ofList (.replicate 64 letter)

def trialPolicy : Resource :=
  ⟨.policy, .object [("id", .string "p"), ("integrations", .ofStrings ["i"])], .draft, none,
    digestOf 'p'⟩

def trialIntegration : Resource :=
  ⟨.integration, .object [("id", .string "i"), ("rules", .ofStrings ["r"])], .draft, none,
    digestOf 'i'⟩

def trialRule : Resource := ⟨.rule, .object [("id", .string "r")], .draft, none, digestOf 'r'⟩

def trialContent : Content := (Content.file .empty trialPolicy).file trialIntegration

theorem fullLength_trialContent : trialContent.FullLength :=
  (FullLength.empty.file (by decide +kernel)).file (by decide +kernel)

theorem apart_trialContent : Apart trialRule.address trialContent (trialContent.file trialRule) := by
  constructor
  · intro a ha
    rw [get?_file, if_neg ha]
  · rw [get?_file, if_pos rfl]
    decide +kernel

/-- With the rule, which comes two steps below the policy, the bytes of the policy change. -/
theorem trial_hashed_ne : ∃ bytes bytes',
    hashed? (coverPolicy trialPolicy) (.ofContent trialContent) = some bytes ∧
    hashed? (coverPolicy trialPolicy) (.ofContent (trialContent.file trialRule)) = some bytes' ∧
    bytes ≠ bytes' := by
  have hup (c : Content) : (ofContent c).Up := fun _ _ => rfl
  have hfiled : trialContent.Filed := (Content.Filed.empty.file _).file _
  obtain ⟨hpolicies, -⟩ := hashed_ne_iff_covered (hup trialContent)
    (hup (trialContent.file trialRule)) hfiled (hfiled.file _) fullLength_trialContent
    (fullLength_trialContent.file (by decide +kernel)) apart_trialContent .draft "p"
  have hlisted : "i" ∈ trialPolicy.references .integrations := by decide +kernel
  have hparents : trialIntegration.Parents trialRule.address :=
    ⟨.rules, by decide, "r", by decide +kernel, rfl⟩
  obtain ⟨bytes, bytes', hbytes, hbytes', hiff⟩ := hpolicies trialPolicy trialPolicy rfl rfl
  exact ⟨bytes, bytes', hbytes, hbytes', hiff.mpr (.inl (.child hlisted rfl hparents))⟩

end Trial

end Store

end ContentSpaces
