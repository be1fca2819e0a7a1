import QueryPlanner.Proofs.Memo.UnionFind
import QueryPlanner.Proofs.Memo.Homes

/-!
# What a merge moves

A merge looks both groups up before it follows the links from the source. The look-up has shortened
the chain by then (`Memo.Direct`), so the walk meets the source and its former master only. All that
these two list goes to the common master (`Listing.mergeInto`), and the groups between them keep
what they have. `Memo.Attainable.mergeInto_empties_iff` says when this makes a difference.
-/

namespace QueryPlanner

open Planning (exec Post)

namespace Memo

variable {memo memo' : Memo} {id other : GroupId}

/-! ## Short chains -/

theorem chain_of_unlinked (h : memo.link? id = none) : memo.chain id = [] := by
  unfold chain
  cases memo.groups.size <;> simp [chainUpTo, h]

/-- More fuel than there are links adds nothing to a chain. -/
theorem Leads.chainUpTo_eq {steps : Nat} {last : GroupId} (h : memo.Leads steps id last) {fuel : Nat}
    (hfuel : steps ≤ fuel) : memo.chainUpTo fuel id = memo.chainUpTo steps id := by
  induction h generalizing fuel with
  | here unlinked => cases fuel <;> simp [chainUpTo, unlinked]
  | step linked _ ih =>
      obtain ⟨fuel, rfl⟩ : ∃ less, fuel = less + 1 := ⟨fuel - 1, by omega⟩
      simp only [chainUpTo, linked]
      rw [ih (by omega)]

theorem LinksEnd.chain_of_link? (hends : memo.LinksEnd) {next : GroupId}
    (h : memo.link? id = some next) : memo.chain id = next :: memo.chain next := by
  obtain ⟨steps, hleads⟩ := hends.leads_master next
  have hstep := Leads.step h hleads
  unfold chain
  rw [hstep.chainUpTo_eq hstep.steps_le, hleads.chainUpTo_eq hleads.steps_le]
  simp [chainUpTo, h]

/-- The last group on a chain is the master, and no other group on it is the master or the group
that it starts from. -/
theorem LinksEnd.exists_chain_eq (hends : memo.LinksEnd) {next : GroupId}
    (h : memo.link? id = some next) : ∃ inner, memo.chain id = inner ++ [memo.master id] ∧
      ∀ between ∈ inner, between ≠ id ∧ between ≠ memo.master id := by
  obtain ⟨steps, hleads⟩ := hends.leads_master id
  generalize memo.master id = last at hleads ⊢
  induction hleads generalizing next with
  | here unlinked => simp [unlinked] at h
  | @step steps id middle last linked rest ih =>
      rw [hends.chain_of_link? linked]
      cases hmiddle : memo.link? middle with
      | none =>
          refine ⟨[], ?_, by simp⟩
          rw [chain_of_unlinked hmiddle, ← rest.master_eq, hends.master_eq_self_iff.mpr hmiddle,
            List.nil_append]
      | some further =>
          obtain ⟨inner, hinner, hbetween⟩ := ih hmiddle
          refine ⟨middle :: inner, by rw [hinner]; rfl, fun between hmem => ⟨?_, ?_⟩⟩
          · -- a group on its own chain would be at two distances from the master
            rintro rfl
            have hself : between ∈ memo.chain between := by
              rw [hends.chain_of_link? linked, hinner]
              simp only [List.mem_cons, List.mem_append] at hmem ⊢
              tauto
            obtain ⟨ahead, hlt, hahead⟩ := (Leads.step linked rest).of_mem_chainUpTo hself
            have := (hahead.unique (.step linked rest)).1
            omega
          · rintro rfl
            rcases List.mem_cons.mp hmem with rfl | hmem
            · simp [rest.link?_last] at hmiddle
            · exact (hbetween between hmem).2 rfl

/-- The link of a group, if it has one, leads to its master. -/
def Direct (memo : Memo) (id : GroupId) : Prop :=
  memo.link? id = none ∨ memo.link? id = some (memo.master id)

theorem link?_foldl_setLink {linked : List GroupId} {last : GroupId}
    (hknown : ∀ below ∈ linked, below.index < memo.groups.size) (other : GroupId) :
    (linked.foldl (fun found below => found.setLink below last) memo).link? other =
      if other ∈ linked then some last else memo.link? other := by
  induction linked generalizing memo with
  | nil => rfl
  | cons below rest ih =>
      have hbelow := hknown below (by simp)
      rw [List.foldl_cons, ih fun other hother => by
        rw [groups_size_setLink]
        exact hknown other (by simp [hother]), link?_setLink]
      by_cases hmem : other ∈ rest
      · simp [hmem]
      · by_cases hother : other = below <;> simp [hmem, hother, hbelow]

/-- Which links a look-up changes. -/
theorem link?_compress (id other : GroupId) : (memo.compress id).link? other =
    if other ∈ (id :: memo.chain id).dropLast then some (memo.master id)
    else memo.link? other := by
  refine link?_foldl_setLink (fun below hbelow => ?_) other
  obtain ⟨next, hnext⟩ := Option.ne_none_iff_exists'.mp (link?_ne_none_of_mem hbelow)
  exact lt_of_link?_eq_some hnext

theorem direct_compress (hends : memo.LinksEnd) (id : GroupId) : (memo.compress id).Direct id := by
  unfold Direct
  rw [(sameContent_compress id).master hends, link?_compress]
  cases hlink : memo.link? id with
  | none => simp [chain_of_unlinked hlink]
  | some next => simp [hends.chain_of_link? hlink]

/-- Looking another group up lengthens no chain. -/
theorem Direct.compress (h : memo.Direct id) (hends : memo.LinksEnd) (other : GroupId) :
    (memo.compress other).Direct id := by
  unfold Direct
  rw [(sameContent_compress other).master hends, link?_compress]
  split
  · rename_i hmem
    refine .inr (congrArg some ?_)
    rcases List.mem_cons.mp (List.dropLast_subset _ hmem) with rfl | hmem
    · rfl
    · exact (hends.master_of_mem_chain hmem).symm
  · exact h

theorem Direct.chain_eq (h : memo.Direct id) (hends : memo.LinksEnd) :
    memo.chain id = if memo.master id = id then [] else [memo.master id] := by
  rcases h with h | h
  · rw [chain_of_unlinked h, if_pos (hends.master_eq_self_iff.mpr h)]
  · have hne : memo.master id ≠ id := fun hself => by
      rw [hends.master_eq_self_iff.mp hself] at h
      simp at h
    rw [hends.chain_of_link? h, chain_of_unlinked (hends.link?_master id), if_neg hne]

/-! ## Lists of groups -/

/-- A list that every group keeps, and that is moved with the alternatives of a group. -/
structure Listing (list : Memo → GroupId → List ExprId) : Prop where
  same : ∀ {memo memo' : Memo}, SameHomes memo memo' → ∀ id, list memo' id = list memo id
  moved : ∀ {memo : Memo} {source target : GroupId}, source ≠ target →
    target.index < memo.groups.size → ∀ id, list (memo.moveAlternatives source target) id =
      if id = source then [] else if id = target then list memo target ++ list memo source
      else list memo id

theorem listing_alternativesOf : Listing alternativesOf where
  same hsame := hsame.alternatives
  moved {memo source target} hne htarget id := by
    cases hsource : memo.group? source with
    | none =>
        have hnone : memo.alternativesOf source = [] := by simp [alternativesOf, hsource]
        simp only [moveAlternatives, hsource, hnone, List.append_nil]
        split
        · rename_i hid
          rw [hid, hnone]
        · split <;> simp_all
    | some found => exact (moves_moveAlternatives hsource hne).alternativesOf hsource hne htarget id

theorem listing_duplicatesOf : Listing duplicatesOf where
  same hsame := hsame.duplicates
  moved {memo source target} hne htarget id := by
    cases hsource : memo.group? source with
    | none =>
        have hnone : memo.duplicatesOf source = [] := by simp [duplicatesOf, hsource]
        simp only [moveAlternatives, hsource, hnone, List.append_nil]
        split
        · rename_i hid
          rw [hid, hnone]
        · split <;> simp_all
    | some found => exact (moves_moveAlternatives hsource hne).duplicatesOf hsource hne htarget id

/-- Moving alternatives adds no group. -/
theorem groups_size_moveAlternatives {source target : GroupId} (hne : source ≠ target) :
    (memo.moveAlternatives source target).groups.size = memo.groups.size := by
  cases hsource : memo.group? source with
  | none => simp only [moveAlternatives, hsource]
  | some found => exact (moves_moveAlternatives hsource hne).groups_size

namespace Listing

variable {list : Memo → GroupId → List ExprId} (hlist : Listing list)
include hlist

/-- Several groups hand their lists over one after the other. -/
theorem foldl_moved {sources : List GroupId} {target : GroupId} (hnodup : sources.Nodup)
    (hsources : target ∉ sources) (htarget : target.index < memo.groups.size) (id : GroupId) :
    list (sources.foldl (fun memo below => memo.moveAlternatives below target) memo) id =
      if id = target then list memo target ++ sources.flatMap (list memo)
      else if id ∈ sources then [] else list memo id := by
  induction sources generalizing memo with
  | nil =>
      by_cases hid : id = target <;> simp [hid]
  | cons first rest ih =>
      rw [List.nodup_cons] at hnodup
      have hne : first ≠ target := fun hsame => hsources (by simp [hsame])
      have hmoved := hlist.moved hne htarget
      have hrest : rest.flatMap (list (memo.moveAlternatives first target)) =
          rest.flatMap (list memo) := by
        refine List.flatMap_congr fun below hbelow => ?_
        have hbelowFirst : below ≠ first := fun hsame => hnodup.1 (hsame ▸ hbelow)
        have hbelowTarget : below ≠ target := fun hsame => hsources (by simp [← hsame, hbelow])
        rw [hmoved, if_neg hbelowFirst, if_neg hbelowTarget]
      rw [List.foldl_cons, ih hnodup.2 (fun hmem => hsources (by simp [hmem]))
        (by rwa [groups_size_moveAlternatives hne]), hrest, hmoved target, hmoved id]
      by_cases hid : id = target
      · simp [hid, Ne.symm hne]
      · by_cases hfirst : id = first <;> simp [hid, hfirst, hne]

end Listing

/-- The groups that a merge empties: the source and its master, if they are not where the
alternatives go. -/
def mergeSources (memo : Memo) (source target : GroupId) : List GroupId :=
  [source, memo.master source].dedup.filter (· ≠ memo.master target)

/-- The walk along a short chain that ends at the common master. -/
theorem takeWhile_chain_eq (hends : memo.LinksEnd) {source into : GroupId}
    (hdirect : memo.Direct source) (hinto : memo.link? into = none)
    (hknown : (memo.master source).index < memo.groups.size) {linked : Memo}
    (hlinked : linked = if memo.master source = into then memo
      else memo.setLink (memo.master source) into) :
    (source :: linked.chain source).takeWhile (· ≠ into) =
      [source, memo.master source].dedup.filter (· ≠ into) := by
  by_cases hsame : memo.master source = into
  · rw [hlinked, if_pos hsame, hdirect.chain_eq hends, hsame]
    by_cases hself : into = source
    · simp [hself]
    · simp [hself, Ne.symm hself]
  · have hlink (id : GroupId) : linked.link? id =
        if id = memo.master source then some into else memo.link? id := by
      rw [hlinked, if_neg hsame, link?_setLink]
      simp [hknown]
    have hends' : linked.LinksEnd := by
      rw [hlinked, if_neg hsame]
      exact hends.setLink (hends.link?_master source) hinto hsame hknown
    have hmaster : linked.chain (memo.master source) = [into] := by
      rw [hends'.chain_of_link? ((hlink _).trans (if_pos rfl)), chain_of_unlinked]
      rw [hlink, if_neg (Ne.symm hsame), hinto]
    by_cases hself : memo.master source = source
    · rw [hself] at hmaster hsame ⊢
      simp [hmaster, hsame]
    · have hstep : linked.link? source = some (memo.master source) := by
        rw [hlink, if_neg (Ne.symm hself)]
        exact hdirect.resolve_left fun hnone => hself (hends.master_eq_self_iff.mpr hnone)
      have hne : source ≠ into := fun hsource => by
        rw [hsource, hends.master_eq_self_iff.mpr hinto] at hsame
        exact hsame rfl
      simp [hends'.chain_of_link? hstep, hmaster, hsame, hne, Ne.symm hself]

/-- A merge hands over the lists of the groups that it empties, and leaves the others theirs. -/
theorem Listing.mergeInto {list : Memo → GroupId → List ExprId} (hlist : Listing list)
    (h : memo.WellFormed) {source target : GroupId} (hsource : source.index < memo.groups.size)
    (htarget : target.index < memo.groups.size) (id : GroupId) :
    list (memo.mergeInto source target) id =
      if id = memo.master target then
        list memo (memo.master target) ++ (memo.mergeSources source target).flatMap (list memo)
      else if id ∈ memo.mergeSources source target then [] else list memo id := by
  have hlooked : SameContent memo ((memo.compress source).compress target) :=
    (sameContent_compress source).trans (sameContent_compress target)
  have hdirect : ((memo.compress source).compress target).Direct source :=
    (direct_compress h.linksEnd source).compress
      ((sameContent_compress source).linksEnd h.linksEnd) target
  have hjoining := h.masterKnown source hsource
  have hinto := h.masterKnown target htarget
  have hmaster := hlooked.master h.linksEnd
  unfold Memo.mergeInto mergeSources
  rw [← hlooked.groups_size] at hjoining hinto
  rw [← hmaster source, ← hmaster target] at *
  have hends := hlooked.linksEnd h.linksEnd
  have hlists := hlist.same hlooked.sameQuery.sameHomes
  generalize (memo.compress source).compress target = looked at *
  dsimp only
  generalize hlinked : (if looked.master source = looked.master target then looked
    else looked.setLink (looked.master source) (looked.master target)) = linked
  have hsame : list linked = list memo := by
    funext id
    rw [← hlists, ← hlinked]
    split
    · rfl
    · exact hlist.same sameHomes_setLink id
  have hsize : linked.groups.size = looked.groups.size := by
    rw [← hlinked]
    split
    · rfl
    · exact groups_size_setLink
  rw [takeWhile_chain_eq hends hdirect (hends.link?_master target) hjoining hlinked.symm,
    hlist.foldl_moved ((List.nodup_dedup _).filter _) (by simp) (hsize ▸ hinto), hsame]

/-! ## Groups that a merge passes over -/

/-- The groups on the chain of a group, itself included, but for a given one. -/
def chainBeside (memo : Memo) (id other : GroupId) : List GroupId :=
  (id :: memo.chain id).filter (· ≠ other)

/-- What is empty on the inner groups of a chain comes from its ends. -/
theorem flatMap_chainBeside_eq (hends : memo.LinksEnd) {source target : GroupId}
    {list : GroupId → List ExprId}
    (hinner : ∀ inner ∈ memo.chain source, inner ≠ memo.master source → list inner = []) :
    (memo.chainBeside source (memo.master target)).flatMap list =
      (memo.mergeSources source target).flatMap list := by
  unfold chainBeside mergeSources
  cases hlink : memo.link? source with
  | none =>
      rw [chain_of_unlinked hlink, hends.master_eq_self_iff.mpr hlink]
      simp
  | some next =>
      obtain ⟨inner, hchain, hbetween⟩ := hends.exists_chain_eq hlink
      have hne : source ≠ memo.master source := fun hself => by
        rw [hends.master_eq_self_iff.mp hself.symm] at hlink
        simp at hlink
      have hempty : (inner.filter (· ≠ memo.master target)).flatMap list = [] := by
        refine List.flatMap_eq_nil_iff.mpr fun between hmem => ?_
        have hmem := (List.mem_filter.mp hmem).1
        exact hinner between (by simp [hchain, hmem]) (hbetween between hmem).2
      have hdedup : [source, memo.master source].dedup = [source] ++ [memo.master source] := by
        simp [hne]
      rw [hchain, hdedup, ← List.singleton_append, List.filter_append, List.filter_append,
        List.filter_append, List.flatMap_append, List.flatMap_append, List.flatMap_append, hempty,
        List.nil_append]

theorem mem_mergeSources {source target : GroupId} : id ∈ memo.mergeSources source target ↔
    (id = source ∨ id = memo.master source) ∧ id ≠ memo.master target := by
  simp [mergeSources]

/-- No group is on its own chain. -/
theorem LinksEnd.not_mem_chain (hends : memo.LinksEnd) (id : GroupId) : id ∉ memo.chain id := by
  cases hlink : memo.link? id with
  | none => simp [chain_of_unlinked hlink]
  | some next =>
      obtain ⟨inner, hchain, hbetween⟩ := hends.exists_chain_eq hlink
      rw [hchain]
      intro hmem
      rcases List.mem_append.mp hmem with hmem | hmem
      · exact (hbetween id hmem).1 rfl
      · rw [hends.master_eq_self_iff.mp (List.mem_singleton.mp hmem).symm] at hlink
        simp at hlink

/-- Merging known groups succeeds. -/
theorem exec_mergeInto {source target : GroupId} (hsource : source.index < memo.groups.size)
    (htarget : target.index < memo.groups.size) :
    exec (Planning.mergeInto source target) memo = (.ok (), memo.mergeInto source target) := by
  have hpost : Post (Planning.mergeInto source target) memo
      (fun _ final => final = memo.mergeInto source target) (fun _ _ => False) := by
    refine Post.bind (Post.group (fun _ _ => Post.bind (Post.group (fun _ _ => ?_) ?_)) ?_)
    · exact Post.modify rfl
    · intro hnone
      rw [group?_eq_none] at hnone
      omega
    · intro hnone
      rw [group?_eq_none] at hnone
      omega
  obtain ⟨_, _, hexec, rfl⟩ | ⟨_, _, _, hfail⟩ := hpost.exists_exec
  · exact hexec
  · exact hfail.elim

/-- A merge links the two masters, and the common one gets the alternatives of the source and of its
master behind its own, none lost and none twice. All groups on the chain of the source are emptied,
and the common master gets all of theirs, exactly if the inner groups of the chain have no
alternatives: these groups are passed over. -/
theorem Attainable.mergeInto_empties_iff (h : memo.Attainable) {source target : GroupId}
    (hsource : source.index < memo.groups.size) (htarget : target.index < memo.groups.size) :
    ∃ final, exec (Planning.mergeInto source target) memo = (.ok (), final) ∧
      final.master source = memo.master target ∧ final.master target = memo.master target ∧
      final.alternativesOf (memo.master target) = memo.alternativesOf (memo.master target) ++
        (memo.mergeSources source target).flatMap memo.alternativesOf ∧
      (final.alternativesOf (memo.master target)).Nodup ∧
      (∀ id, id ≠ memo.master target → final.alternativesOf id =
        if id ∈ memo.mergeSources source target then [] else memo.alternativesOf id) ∧
      ((∀ id ∈ memo.chainBeside source (memo.master target), final.alternativesOf id = []) ∧
          final.alternativesOf (memo.master target) = memo.alternativesOf (memo.master target) ++
            (memo.chainBeside source (memo.master target)).flatMap memo.alternativesOf ↔
        ∀ inner ∈ memo.chain source, inner ≠ memo.master source →
          memo.alternativesOf inner = []) := by
  have hwell := h.inOrder.1
  have hends := hwell.linksEnd
  have hlists := listing_alternativesOf.mergeInto hwell hsource htarget
  have hmasters := (hwell.mergeInto hsource htarget).masters
  have hhoused : (memo.mergeInto source target).Housed := h.housed.mergeInto hwell htarget
  have hinto : memo.master target ∉ memo.mergeSources source target := by simp [mem_mergeSources]
  refine ⟨_, exec_mergeInto hsource htarget, ?_, ?_, ?_, ?_, fun id hid => ?_, ?_⟩
  · rw [hmasters, if_pos rfl]
  · rw [hmasters]
    split <;> rfl
  · rw [hlists, if_pos rfl]
  · exact (hhoused.nodup _).sublist (List.sublist_append_left _ _)
  · rw [hlists, if_neg hid]
  · constructor
    · rintro ⟨hemptied, -⟩ inner hinner hne
      have hmaster := hends.master_of_mem_chain hinner
      have hbeside : inner ≠ memo.master target := by
        rintro rfl
        exact hne ((hends.master_master target).symm.trans hmaster)
      have hsourceNe : inner ≠ source := by
        rintro rfl
        exact hends.not_mem_chain inner hinner
      have hleft := hemptied inner (by simp [chainBeside, hinner, hbeside])
      rwa [hlists, if_neg hbeside, if_neg (by simp [mem_mergeSources, hsourceNe, hne])] at hleft
    · intro hinner
      refine ⟨fun id hid => ?_, ?_⟩
      · obtain ⟨hid, hbeside⟩ := List.mem_filter.mp hid
        have hbeside : id ≠ memo.master target := by simpa using hbeside
        rw [hlists, if_neg hbeside]
        split
        · rfl
        · rename_i hkept
          have hends : id ≠ source ∧ id ≠ memo.master source := by
            simpa [mem_mergeSources, hbeside] using hkept
          exact hinner id ((List.mem_cons.mp hid).resolve_left hends.1) hends.2
      · rw [hlists, if_pos rfl, flatMap_chainBeside_eq hends hinner]

/-- The first table of a chain of three is merged into the last one, and the one in between is
passed over. -/
theorem chained_mergeInto_empties :
    chained.chain ⟨0⟩ = [⟨1⟩, ⟨2⟩] ∧
      ∃ final, exec (Planning.mergeInto ⟨0⟩ ⟨2⟩) chained = (.ok (), final) ∧
        final.alternativesOf ⟨2⟩ = [⟨2⟩, ⟨0⟩] ∧ final.alternativesOf ⟨1⟩ = [⟨1⟩] ∧
        ¬ ((∀ id ∈ chained.chainBeside ⟨0⟩ ⟨2⟩, final.alternativesOf id = []) ∧
          final.alternativesOf ⟨2⟩ = chained.alternativesOf ⟨2⟩ ++
            (chained.chainBeside ⟨0⟩ ⟨2⟩).flatMap chained.alternativesOf) := by
  have hsource : (⟨0⟩ : GroupId).index < chained.groups.size := by decide +kernel
  have htarget : (⟨2⟩ : GroupId).index < chained.groups.size := by decide +kernel
  have hmaster : chained.master ⟨2⟩ = ⟨2⟩ := by decide +kernel
  obtain ⟨final, hexec, -, -, hinto, -, hothers, hiff⟩ :=
    linked_chained.reachable.attainable.mergeInto_empties_iff hsource htarget
  rw [hmaster] at hinto hothers hiff
  refine ⟨by decide +kernel, final, hexec, ?_, ?_, fun hall => ?_⟩
  · rw [hinto]
    decide +kernel
  · rw [hothers ⟨1⟩ (by decide)]
    decide +kernel
  · have hnone := hiff.mp hall ⟨1⟩ (by decide +kernel) (by decide +kernel)
    exact absurd hnone (by decide +kernel)

end Memo

end QueryPlanner
