import Mathlib.Logic.Relation
import QueryPlanner.Proofs.Memo.Reachable

/-!
# Links as a union-find structure

`Memo.Linked` fills a memo and writes down the pairs of groups that are found to compute the same
result. `Memo.Linked.unionFind` says that the links between groups represent exactly the equivalence
that these pairs generate, and that every look-up ends. Links that are recorded go up, to the group
with the higher number; only a merge may put a master below a lower one.
-/

namespace QueryPlanner

open Planning (exec Post Keeps)

namespace Memo

/-- The pair of groups that an insertion finds to be duplicates of each other: its target, and the
group that has the alternative already. -/
def twinPair (memo : Memo) (target : Option GroupId) :
    Except PlanningError Insertion → List (GroupId × GroupId)
  | .ok { expr := twin, group := _, isNew := false } =>
    match target, memo.expr? twin with
    | some id, some expr =>
      if memo.master id = memo.master expr.group then [] else [(id, expr.group)]
    | _, _ => []
  | _ => []

/-- An insertion without a target finds no duplicates. -/
theorem twinPair_none {memo : Memo} {result : Except PlanningError Insertion} :
    memo.twinPair none result = [] := by
  rcases result with _ | ⟨_, _, _ | _⟩ <;> rfl

/-- The memos that can come about, each with the pairs of groups recorded as duplicates so far, and
with those by which a merge joined two different masters. -/
inductive Linked : List (GroupId × GroupId) → List (GroupId × GroupId) → Memo → Prop
  | empty : Linked [] [] {}
  | insert {pairs joined : List (GroupId × GroupId)} {memo : Memo}
      (before : Linked pairs joined memo) (op : Operator) (children : List GroupId)
      (target : Option GroupId) (origin : Option Origin) :
      Linked
        (pairs ++ memo.twinPair target (exec (Planning.insert op children target origin) memo).1)
        joined (exec (Planning.insert op children target origin) memo).2
  | addDuplicate {pairs joined : List (GroupId × GroupId)} {memo : Memo}
      (before : Linked pairs joined memo) {left right : GroupId}
      (left_known : left.index < memo.groups.size) (right_known : right.index < memo.groups.size) :
      Linked (pairs ++ [(left, right)]) joined (exec (Planning.addDuplicate left right) memo).2
  | mergeInto {pairs joined : List (GroupId × GroupId)} {memo : Memo}
      (before : Linked pairs joined memo) {source target : GroupId}
      (source_known : source.index < memo.groups.size)
      (target_known : target.index < memo.groups.size) :
      Linked (pairs ++ [(source, target)])
        (if memo.master source = memo.master target then joined else joined ++ [(source, target)])
        (exec (Planning.mergeInto source target) memo).2
  | mergeDuplicates {pairs joined : List (GroupId × GroupId)} {memo : Memo}
      (before : Linked pairs joined memo) : Linked pairs joined memo.mergeDuplicates
  | resolve {pairs joined : List (GroupId × GroupId)} {memo : Memo}
      (before : Linked pairs joined memo) (id : GroupId) :
      Linked pairs joined (exec (Planning.resolve id) memo).2

/-- The equivalence that pairs of groups generate. -/
abbrev Generated (pairs : List (GroupId × GroupId)) : GroupId → GroupId → Prop :=
  Relation.EqvGen fun left right => (left, right) ∈ pairs

/-- The links represent the equivalence that the recorded pairs generate. -/
structure UnionFind (pairs joined : List (GroupId × GroupId)) (memo : Memo) : Prop where
  /-- No chain of links comes back to where it started. -/
  acyclic : ∀ id, ¬ Relation.TransGen (fun below above => memo.link? below = some above) id id
  /-- Following the links from a group ends at its master, after no more links than there are
  groups. -/
  ends : ∀ id, ∃ steps ≤ memo.groups.size, memo.Leads steps id (memo.master id)
  /-- A look-up of a known group finds a known group without a link, and finds it again when that is
  looked up next. -/
  resolves : ∀ id, id.index < memo.groups.size →
    exec (Planning.resolve id) memo = (.ok (memo.master id), memo.compress id) ∧
      (memo.master id).index < memo.groups.size ∧ memo.link? (memo.master id) = none ∧
      (memo.compress id).link? (memo.master id) = none ∧
      (exec (Planning.resolve (memo.master id)) (memo.compress id)).1 = .ok (memo.master id)
  /-- Shortening a chain changes no master. -/
  compressed : ∀ id other, (memo.compress id).master other = memo.master other
  /-- Two groups have the same master exactly when the recorded pairs make them equivalent. -/
  classes : ∀ left right, memo.master left = memo.master right ↔ Generated pairs left right
  /-- Without a merge of different masters, a master has the highest number of its class. -/
  highest : joined = [] → ∀ id other, memo.master other = memo.master id →
    other.index ≤ (memo.master id).index

variable {pairs joined : List (GroupId × GroupId)} {memo memo' : Memo}

/-- What two groups have in common in every pair, equivalent groups have in common. -/
theorem Generated.value_eq {α : Type} {left right : GroupId} (h : Generated pairs left right)
    (value : GroupId → α) (hpairs : ∀ pair ∈ pairs, value pair.1 = value pair.2) :
    value left = value right := by
  induction h with
  | rel one other hmem => exact hpairs (one, other) hmem
  | refl _ => rfl
  | symm _ _ _ ih => exact ih.symm
  | trans _ _ _ _ _ ih ih' => exact ih.trans ih'

/-! ## Links end -/

/-- A chain of links leads on to the same end with fewer links to go. -/
theorem Leads.of_transGen {id above : GroupId}
    (hchain : Relation.TransGen (fun below above => memo.link? below = some above) id above) :
    ∀ {steps : Nat} {last : GroupId}, memo.Leads steps id last →
      ∃ ahead < steps, memo.Leads ahead above last := by
  have hstep {id next last : GroupId} {steps : Nat} (hnext : memo.link? id = some next)
      (h : memo.Leads steps id last) : ∃ ahead < steps, memo.Leads ahead next last := by
    cases h with
    | here unlinked => simp [unlinked] at hnext
    | step linked rest =>
        obtain rfl := Option.some.inj (hnext.symm.trans linked)
        exact ⟨_, Nat.lt_succ_self _, rest⟩
  induction hchain with
  | single hnext => exact hstep hnext
  | tail _ hnext ih =>
      intro steps last h
      obtain ⟨middle, hmiddle, hrest⟩ := ih h
      obtain ⟨ahead, hahead, hlast⟩ := hstep hnext hrest
      exact ⟨ahead, hahead.trans hmiddle, hlast⟩

/-- Links that end have no cycle. -/
theorem LinksEnd.acyclic (hends : memo.LinksEnd) (id : GroupId) :
    ¬ Relation.TransGen (fun below above => memo.link? below = some above) id id := by
  intro hcycle
  obtain ⟨steps, last, h⟩ := hends id
  obtain ⟨ahead, hlt, hahead⟩ := h.of_transGen hcycle
  exact hlt.ne (hahead.unique h).1

/-- A look-up answers the master. -/
theorem exec_resolve {id : GroupId} (hknown : id.index < memo.groups.size) :
    exec (Planning.resolve id) memo = (.ok (memo.master id), memo.compress id) := by
  have hpost : Post (Planning.resolve id) memo
      (fun master final => master = memo.master id ∧ final = memo.compress id)
      (fun _ _ => False) := by
    refine Post.bind (Post.group (fun _ _ => ?_) fun hnone => ?_)
    · exact Post.bind (Post.get (Post.bind (Post.set (Post.pure ⟨rfl, rfl⟩))))
    · rw [group?_eq_none] at hnone
      omega
  obtain ⟨_, _, hexec, rfl, rfl⟩ | ⟨_, _, _, hfail⟩ := hpost.exists_exec
  · exact hexec
  · exact hfail.elim

/-! ## Classes -/

/-- Groups have the same master exactly when the recorded pairs make them equivalent. -/
def Classes (pairs : List (GroupId × GroupId)) (memo : Memo) : Prop :=
  ∀ left right, memo.master left = memo.master right ↔ Generated pairs left right

namespace Classes

/-- Nothing is recorded while all masters stay. -/
theorem congr (h : Classes pairs memo) (hmasters : ∀ id, memo'.master id = memo.master id) :
    Classes pairs memo' := by
  intro left right
  rw [hmasters, hmasters]
  exact h left right

/-- Uniting the classes of two groups makes exactly these two equivalent in addition. -/
theorem unites (h : Classes pairs memo) {left right joining into : GroupId}
    (hunites : Unites joining into memo memo')
    (hsides : joining = memo.master left ∧ into = memo.master right ∨
      joining = memo.master right ∧ into = memo.master left) :
    Classes (pairs ++ [(left, right)]) memo' := by
  have hold {one other : GroupId} (hsame : memo.master one = memo.master other) :
      Generated (pairs ++ [(left, right)]) one other :=
    ((h one other).mp hsame).mono fun _ _ hmem => List.mem_append_left _ hmem
  have hnew : Generated (pairs ++ [(left, right)]) left right :=
    .rel _ _ (List.mem_append_right _ (List.mem_singleton_self _))
  -- a group of the class that joins is now equivalent to every group of the other one
  have hacross {one other : GroupId} (hone : memo.master one = joining)
      (hother : memo.master other = into) : Generated (pairs ++ [(left, right)]) one other := by
    rcases hsides with ⟨rfl, rfl⟩ | ⟨rfl, rfl⟩
    · exact ((hold hone).trans _ _ _ hnew).trans _ _ _ (hold hother).symm
    · exact ((hold hone).trans _ _ _ (hnew.symm _ _)).trans _ _ _ (hold hother).symm
  intro one other
  rw [hunites.masters, hunites.masters]
  constructor
  · intro hsame
    by_cases hone : memo.master one = joining <;> by_cases hother : memo.master other = joining
    · exact hold (hone.trans hother.symm)
    · rw [if_pos hone, if_neg hother] at hsame
      exact hacross hone hsame.symm
    · rw [if_neg hone, if_pos hother] at hsame
      exact (hacross hother hsame).symm
    · rw [if_neg hone, if_neg hother] at hsame
      exact hold hsame
  · intro hgenerated
    refine hgenerated.value_eq (fun id => if memo.master id = joining then into else memo.master id)
      fun pair hmem => ?_
    rcases List.mem_append.mp hmem with hmem | hmem
    · rw [(h pair.1 pair.2).mpr (.rel _ _ hmem)]
    · obtain rfl := List.mem_singleton.mp hmem
      rcases hsides with ⟨rfl, rfl⟩ | ⟨rfl, rfl⟩ <;> simp

/-- An insertion records the pair of groups that it unites. -/
theorem insert (h : Classes pairs memo) (hwell : memo.WellFormed) (op : Operator)
    (children : List GroupId) (target : Option GroupId) (origin : Option Origin) :
    let result := exec (Planning.insert op children target origin) memo
    Classes (pairs ++ memo.twinPair target result.1) result.2 := by
  dsimp only
  by_cases hvalid : memo.Insertable op children target
  · obtain ⟨outcome, final, hexec, hinserts⟩ | ⟨_, _, _, hfail⟩ :=
      (Post.insert origin hwell hvalid).exists_exec
    · rw [hexec]
      cases hinserts with
      | @found twin expr _ _ hexpr hhome hsame =>
          have hnone : memo.twinPair target (.ok ⟨twin, final.master expr.group, false⟩) = [] := by
            cases target with
            | none => exact twinPair_none
            | some id => simp [twinPair, hexpr, hhome id rfl]
          rw [hnone, List.append_nil]
          exact h.congr (hsame.master hwell.linksEnd)
      | @united twin expr _ id joining into _ hexpr htarget haway hsides hunites =>
          subst htarget
          have hpair : memo.twinPair (some id) (.ok ⟨twin, final.master expr.group, false⟩) =
              [(id, expr.group)] := by
            simp [twinPair, hexpr, haway]
          rw [hpair]
          exact h.unites hunites hsides
      | added _ _ hsame =>
          rw [show memo.twinPair target _ = [] from rfl, List.append_nil]
          exact (h.congr (hsame.master hwell.linksEnd)).congr
            (master_congr _ (hsame.linksEnd hwell.linksEnd) link?_addAlternative)
      | created _ _ _ hsame =>
          have hends := hsame.linksEnd hwell.linksEnd
          rw [show memo.twinPair target _ = [] from rfl, List.append_nil]
          refine (h.congr (hsame.master hwell.linksEnd)).congr
            (master_congr _ hends fun id => ?_)
          rw [link?_addAlternative, link?_pushGroup]
    · exact hfail.elim
  · obtain ⟨_, _, _, hfail⟩ | ⟨_, final, hexec, rfl⟩ :=
      (@Post.insert_fails _ _ _ _ origin hvalid).exists_exec
    · exact hfail.elim
    · rw [hexec, show final.twinPair target (.error _) = [] from rfl, List.append_nil]
      exact h

end Classes

/-! ## Masters go up -/

/-- The number of a master only grows. -/
def MastersRise (memo memo' : Memo) : Prop :=
  memo.LinksEnd → memo'.LinksEnd ∧ ∀ id, (memo.master id).index ≤ (memo'.master id).index

namespace MastersRise

protected theorem trans {memo'' : Memo} (h : MastersRise memo memo')
    (h' : MastersRise memo' memo'') : MastersRise memo memo'' := fun hends =>
  ⟨(h' (h hends).1).1, fun id => ((h hends).2 id).trans ((h' (h hends).1).2 id)⟩

/-- Where all links are as before, the masters are. -/
theorem of_link? (hlinks : ∀ id, memo'.link? id = memo.link? id) : MastersRise memo memo' :=
  fun hends => ⟨hends.congr hlinks, fun id => (master_congr memo' hends hlinks id).symm ▸ le_rfl⟩

/-- Groups that are looked up keep their masters. -/
theorem of_sameContent (hsame : memo.SameContent memo') : MastersRise memo memo' := fun hends =>
  ⟨hsame.linksEnd hends, fun id => (hsame.master hends id).symm ▸ le_rfl⟩

/-- A link from a master to one with a higher number. -/
theorem setLink {low high : GroupId} (hlow : memo.link? low = none)
    (hhigh : memo.link? high = none) (hlt : low.index < high.index) :
    MastersRise memo (memo.setLink low high) := by
  intro hends
  by_cases hknown : low.index < memo.groups.size
  · have hne : low ≠ high := fun hsame => by simp [hsame] at hlt
    refine ⟨hends.setLink hlow hhigh hne hknown, fun id => ?_⟩
    rw [master_setLink hends hlow hhigh hne hknown]
    split
    · rename_i hmaster
      rw [hmaster]
      exact hlt.le
    · exact le_rfl
  · exact of_link? (fun id => by rw [link?_setLink, if_neg (by tauto)]) hends

/-- Recording duplicates links the master with the lower number to the other. -/
theorem addDuplicate (left right : GroupId) : MastersRise memo (memo.addDuplicate left right) := by
  have hlooked : SameContent memo ((memo.compress left).compress right) :=
    (sameContent_compress left).trans (sameContent_compress right)
  intro hends
  have hmaster (id : GroupId) := (hlooked.linksEnd hends).link?_master id
  refine (MastersRise.trans (of_sameContent hlooked) ?_) hends
  unfold Memo.addDuplicate
  dsimp only
  split
  · exact fun hends => ⟨hends, fun _ => le_rfl⟩
  · rename_i hne
    split
    · rename_i hlt
      exact setLink (hmaster left) (hmaster right) hlt
    · rename_i hle
      refine setLink (hmaster right) (hmaster left) (Nat.lt_of_le_of_ne (Nat.not_lt.mp hle) ?_)
      exact fun hindex => hne (congrArg GroupId.mk hindex.symm)

end MastersRise

/-- Filling a memo raises masters at most. -/
instance : Looking MastersRise where
  refl _ hends := ⟨hends, fun _ => le_rfl⟩
  trans _ _ _ := MastersRise.trans
  looked _ _ := MastersRise.of_sameContent

instance : Inserting MastersRise where
  linked _ := MastersRise.addDuplicate
  pushed _ _ := MastersRise.of_link? fun _ => link?_pushGroup
  added _ _ _ _ _ := MastersRise.of_link? link?_addAlternative

/-! ## Filling a memo -/

/-- Writing down the pairs restricts nothing. -/
theorem Linked.reachable (h : Linked pairs joined memo) : memo.Reachable := by
  induction h with
  | empty => exact .empty
  | insert _ op children target origin ih => exact ih.insert op children target origin
  | addDuplicate _ _ _ ih => exact ih.addDuplicate _ _
  | mergeInto _ _ _ ih => exact ih.mergeInto _ _
  | mergeDuplicates _ ih => exact ih.mergeDuplicates
  | resolve _ id ih => exact ih.look (Planning.sameContent_resolve _).exec_snd

/-- What a merge of two known groups leaves. -/
theorem unites_exec_mergeInto (hwell : memo.WellFormed) {source target : GroupId}
    (hsource : source.index < memo.groups.size) (htarget : target.index < memo.groups.size) :
    Unites (memo.master source) (memo.master target) memo
      (exec (Planning.mergeInto source target) memo).2 := by
  have hmerged := hwell.mergeInto hsource htarget
  refine Post.exec_snd (Post.bind (Post.group (fun _ _ => ?_) fun hnone => ?_))
  · refine Post.bind (Post.group (fun _ _ => Post.modify hmerged) fun hnone => ?_)
    rw [group?_eq_none] at hnone
    omega
  · rw [group?_eq_none] at hnone
    omega

/-- The links represent the recorded pairs after every step. -/
theorem Linked.classes (h : Linked pairs joined memo) : Classes pairs memo := by
  have hwell {pairs joined : List (GroupId × GroupId)} {memo : Memo}
      (h : Linked pairs joined memo) : memo.WellFormed := h.reachable.wellFormed
  induction h with
  | empty =>
      intro left right
      have hself (id : GroupId) : ({} : Memo).master id = id :=
        wellFormed_empty.linksEnd.master_eq_self_iff.mpr (by simp [link?, group?])
      rw [hself, hself]
      exact ⟨fun hsame => hsame ▸ .refl _, fun hgenerated => hgenerated.value_eq id (by simp)⟩
  | insert before op children target origin ih =>
      exact ih.insert (hwell before) op children target origin
  | addDuplicate before hleft hright ih =>
      obtain ⟨joining, into, hunites, hsides⟩ := (hwell before).addDuplicate hleft hright
      refine ih.unites (Post.exec_snd ((Post.addDuplicate hleft hright).mono ?_ ?_)) hsides
      · rintro _ _ rfl
        exact hunites
      · exact fun _ _ hfail => hfail.elim
  | mergeInto before hsource htarget ih =>
      exact ih.unites (unites_exec_mergeInto (hwell before) hsource htarget) (.inl ⟨rfl, rfl⟩)
  | mergeDuplicates before ih => exact ih.congr (hwell before).mergeDuplicates.masters
  | resolve before id ih =>
      exact ih.congr ((Planning.sameContent_resolve _).exec_snd.master (hwell before).linksEnd)

/-- Without a merge of different masters, no master has a lower number than its groups. -/
theorem Linked.le_master (h : Linked pairs joined memo) (hjoined : joined = []) (id : GroupId) :
    id.index ≤ (memo.master id).index := by
  induction h with
  | empty =>
      rw [wellFormed_empty.linksEnd.master_eq_self_iff.mpr (by simp [link?, group?])]
  | insert before op children target origin ih =>
      have hrise : Keeps MastersRise (Planning.insert op children target origin) :=
        Inserting.keeps_insert
      exact (ih hjoined).trans
        (((hrise _).exec_snd before.reachable.wellFormed.linksEnd).2 id)
  | addDuplicate before _ _ ih =>
      have hrise {left right : GroupId} : Keeps MastersRise (Planning.addDuplicate left right) :=
        Linking.keeps_addDuplicate
      exact (ih hjoined).trans
        (((hrise _).exec_snd before.reachable.wellFormed.linksEnd).2 id)
  | mergeInto before hsource htarget ih =>
      split at hjoined
      · rename_i hsame
        have hunites := unites_exec_mergeInto before.reachable.wellFormed hsource htarget
        rw [hsame] at hunites
        rw [hunites.regroups.masters]
        exact ih hjoined
      · simp at hjoined
  | mergeDuplicates before ih =>
      rw [before.reachable.wellFormed.mergeDuplicates.masters]
      exact ih hjoined
  | resolve before other ih =>
      rw [(Planning.sameContent_resolve _).exec_snd.master before.reachable.wellFormed.linksEnd]
      exact ih hjoined

/-- In every memo that comes about by insertions, recorded duplicates, merges and look-ups, the
links between duplicate groups are a union-find structure for the recorded pairs. -/
theorem Linked.unionFind (h : Linked pairs joined memo) : UnionFind pairs joined memo := by
  have hwell := h.reachable.wellFormed
  have hends := hwell.linksEnd
  refine ⟨hends.acyclic, fun id => ?_, fun id hknown => ?_, fun id => ?_, h.classes, ?_⟩
  · obtain ⟨steps, hleads⟩ := hends.leads_master id
    exact ⟨steps, hleads.steps_le, hleads⟩
  · have hsame : SameContent memo (memo.compress id) := sameContent_compress id
    have hmaster := hsame.master hends (memo.master id)
    have hmasterKnown := hwell.masterKnown id hknown
    rw [hends.master_master] at hmaster
    refine ⟨exec_resolve hknown, hmasterKnown, hends.link?_master id, ?_, ?_⟩
    · exact (hsame.linksEnd hends).master_eq_self_iff.mp hmaster
    · rw [exec_resolve (by rwa [hsame.groups_size]), hmaster]
  · exact (sameContent_compress id).master hends
  · intro hjoined id other hsame
    rw [← hsame]
    exact h.le_master hjoined other

/-- The rows of a table with one column. -/
def getColumn (column : Nat) : Operator :=
  .logical (.get { table := { id := column, name := "", rows := 0 }, columns := [⟨column⟩] })

/-- Three tables. -/
def tables : Memo := [0, 1, 2].foldl
  (fun memo column => (exec (Planning.insert (getColumn column) [] none none) memo).2) {}

theorem linked_tables : Linked [] [] tables := by
  refine List.foldlRecOn _ _ Linked.empty fun memo h column _ => ?_
  have hinserted := h.insert (getColumn column) [] none none
  rwa [twinPair_none] at hinserted

/-- The first table is inserted again, for the group of the second one, and is then found to be a
duplicate of the third one as well. -/
def chained : Memo :=
  (exec (Planning.addDuplicate ⟨0⟩ ⟨2⟩)
    (exec (Planning.insert (getColumn 0) [] (some ⟨1⟩) none) tables).2).2

theorem linked_chained : Linked [(⟨1⟩, ⟨0⟩), (⟨0⟩, ⟨2⟩)] [] chained := by
  have hfound := linked_tables.insert (getColumn 0) [] (some ⟨1⟩) none
  rw [show tables.twinPair _ _ = [(⟨1⟩, ⟨0⟩)] by decide +kernel] at hfound
  exact @Linked.addDuplicate _ _ _ hfound ⟨0⟩ ⟨2⟩ (by decide +kernel) (by decide +kernel)

/-- Links over two groups lead to the third one, the highest of the class. -/
theorem chained_unionFind :
    UnionFind [(⟨1⟩, ⟨0⟩), (⟨0⟩, ⟨2⟩)] [] chained ∧ chained.link? ⟨0⟩ = some ⟨1⟩ ∧
      chained.link? ⟨1⟩ = some ⟨2⟩ ∧ chained.master ⟨0⟩ = ⟨2⟩ :=
  ⟨linked_chained.unionFind, by decide +kernel, by decide +kernel, by decide +kernel⟩

end Memo

end QueryPlanner
