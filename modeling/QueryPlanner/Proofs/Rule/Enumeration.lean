import Mathlib.Data.Finset.Card
import Mathlib.Data.Finset.Range
import Mathlib.Logic.Relation
import QueryPlanner.Proofs.Memo.Homes

/-!
# All trees that match a pattern

`Memo.TreesAt` is the list of all trees at an alternative that match a pattern, and
`Memo.TreesAmong` that of the trees at several alternatives. They follow the pattern down the memo
and take one tree per child in all combinations. A pattern that takes whole subtrees goes on as long
as there are groups, so the list need not exist; it does where no group that is opened in this way
comes below itself (`Memo.Bounded`). `Memo.Bounded.within` bounds the levels in that case.
-/

namespace QueryPlanner

namespace Pattern

/-- Whether the pattern takes a whole subtree. -/
def isWhole : Pattern → Bool
  | .tree | .trees => true
  | _ => false

theorem height_le_heights {patterns : List Pattern} {pattern : Pattern} (h : pattern ∈ patterns) :
    pattern.height ≤ heights patterns := by
  induction patterns with
  | nil => simp at h
  | cons first rest ih =>
      rw [heights]
      rcases List.mem_cons.mp h with rfl | h
      · exact Nat.le_max_left _ _
      · exact (ih h).trans (Nat.le_max_right _ _)

theorem height_pos (pattern : Pattern) : 0 < pattern.height := by
  cases pattern <;> simp only [height] <;> omega

/-- What an operator asks of its children are patterns below it. -/
theorem mem_of_child? {test : OperatorTest} {children : List Pattern} {below : Pattern}
    {position : Nat} (h : (node test children).child? position = some below) : below ∈ children := by
  unfold child? at h
  dsimp only at h
  split at h
  · rename_i found hfound
    obtain rfl := Option.some.inj h
    exact List.mem_of_getElem? hfound
  · exact List.mem_of_getLast? (Option.filter_eq_some_iff.mp h).1

/-- A child is asked for a part of the pattern, or for a whole subtree. -/
theorem height_of_child? {pattern below : Pattern} {position : Nat}
    (h : pattern.child? position = some below) :
    below.height < pattern.height ∨ below = .tree := by
  cases pattern with
  | node test children =>
      refine .inl ?_
      have := height_le_heights (mem_of_child? h)
      rw [height]
      omega
  | tree | trees => exact .inr (Option.some.inj h).symm
  | leaf | leaves => simp [child?] at h

/-- An alternative that is admitted has as many children as the pattern asks for. -/
theorem exists_child? {pattern : Pattern} {op : Operator} {arity position : Nat}
    (hopen : pattern.isLeaf = false) (hadmits : pattern.admits op arity = true)
    (hposition : position < arity) : ∃ below, pattern.child? position = some below := by
  cases pattern with
  | node test children =>
      simp only [admits, Bool.and_eq_true] at hadmits
      unfold child?
      dsimp only
      cases hchild : children[position]? with
      | some below => exact ⟨below, rfl⟩
      | none =>
          have hlength := List.getElem?_eq_none_iff.mp hchild
          split at hadmits
          · rename_i hrepeated
            cases hlast : children.getLast? with
            | none => simp [hlast] at hrepeated
            | some last =>
                rw [hlast] at hrepeated
                exact ⟨last, Option.filter_eq_some_iff.mpr ⟨rfl, hrepeated⟩⟩
          · have := hadmits.2
            simp only [beq_iff_eq] at this
            omega
  | tree | trees => exact ⟨_, rfl⟩
  | leaf | leaves => simp [isLeaf] at hopen

end Pattern

/-- All ways to put one of some trees before one of some lists. The lists change fastest. -/
def combine (trees : List BoundExpr) (lists : List (List BoundExpr)) : List (List BoundExpr) :=
  trees.flatMap fun tree => lists.map (tree :: ·)

namespace Memo

mutual

/-- All trees at an alternative, in the order of the last child first. -/
inductive TreesAt (memo : Memo) : Pattern → ExprId → List BoundExpr → Prop
  | refused {pattern : Pattern} {id : ExprId}
      (refused : ∀ expr, memo.expr? id = some expr → pattern.admits expr.op expr.arity = false) :
      TreesAt memo pattern id []
  | admitted {pattern : Pattern} {id : ExprId} {expr : MemoExpr}
      {combinations : List (List BoundExpr)} (found : memo.expr? id = some expr)
      (admitted : pattern.admits expr.op expr.arity = true)
      (below : TreesBelow memo pattern 0 expr.children combinations) :
      TreesAt memo pattern id
        (combinations.map (.node id (memo.master expr.group) expr.op))

/-- All trees at several alternatives, in their order. -/
inductive TreesAmong (memo : Memo) : Pattern → List ExprId → List BoundExpr → Prop
  | nil {pattern : Pattern} : TreesAmong memo pattern [] []
  | cons {pattern : Pattern} {id : ExprId} {ids : List ExprId} {trees others : List BoundExpr}
      (first : TreesAt memo pattern id trees) (rest : TreesAmong memo pattern ids others) :
      TreesAmong memo pattern (id :: ids) (trees ++ others)

/-- All trees of a group. -/
inductive TreesIn (memo : Memo) : Pattern → GroupId → List BoundExpr → Prop
  | leaf {pattern : Pattern} {group : GroupId} (whole : pattern.isLeaf = true) :
      TreesIn memo pattern group [.leaf group]
  | expanded {pattern : Pattern} {group : GroupId} {trees : List BoundExpr}
      (opened : pattern.isLeaf = false)
      (among : TreesAmong memo pattern (memo.alternativesOf group) trees) :
      TreesIn memo pattern group trees

/-- All combinations of one tree per child, for the children of an alternative from a position
on. -/
inductive TreesBelow (memo : Memo) : Pattern → Nat → List GroupId → List (List BoundExpr) → Prop
  | nil {pattern : Pattern} {position : Nat} : TreesBelow memo pattern position [] [[]]
  | cons {pattern below : Pattern} {position : Nat} {child : GroupId} {children : List GroupId}
      {trees : List BoundExpr} {combinations : List (List BoundExpr)}
      (asked : pattern.child? position = some below)
      (first : TreesIn memo below (memo.master child) trees)
      (rest : TreesBelow memo pattern (position + 1) children combinations) :
      TreesBelow memo pattern position (child :: children) (combine trees combinations)

end

variable {memo : Memo} {pattern below : Pattern} {id other : ExprId} {group : GroupId}

/-! ## Groups that are opened -/

/-- A group is below another one: it is a child of an alternative in use that is not physical. -/
def LeadsDown (memo : Memo) (upper lower : GroupId) : Prop :=
  ∃ id ∈ memo.alternativesOf upper, ∃ expr, memo.expr? id = some expr ∧
    expr.op.isPhysical = false ∧ ∃ child ∈ expr.children, memo.master child = lower

/-- A pattern at an alternative opens the group of a child for a pattern of its own. -/
def Opens (memo : Memo) (pattern : Pattern) (id : ExprId) (below : Pattern) (group : GroupId) :
    Prop :=
  ∃ expr, memo.expr? id = some expr ∧ pattern.admits expr.op expr.arity = true ∧
    ∃ (child : GroupId) (position : Nat), expr.children[position]? = some child ∧
      pattern.child? position = some below ∧ below.isLeaf = false ∧ memo.master child = group

/-- The groups that a pattern at an alternative opens on all levels. -/
inductive Expands (memo : Memo) : Pattern → ExprId → Pattern → GroupId → Prop
  | here {pattern below : Pattern} {id : ExprId} {group : GroupId}
      (opens : memo.Opens pattern id below group) : Expands memo pattern id below group
  | deeper {pattern middle below : Pattern} {id other : ExprId} {between group : GroupId}
      (opens : memo.Opens pattern id middle between)
      (listed : other ∈ memo.alternativesOf between)
      (rest : Expands memo middle other below group) : Expands memo pattern id below group

/-- No group that a pattern at an alternative opens for whole subtrees comes below itself. -/
def Bounded (memo : Memo) (pattern : Pattern) (id : ExprId) : Prop :=
  ∀ below group, memo.Expands pattern id below group → below.isWhole = true →
    ¬ Relation.TransGen memo.LeadsDown group group

theorem Expands.tail (h : memo.Expands pattern id below group)
    (hother : other ∈ memo.alternativesOf group) {deepest : Pattern} {lower : GroupId}
    (hopens : memo.Opens below other deepest lower) : memo.Expands pattern id deepest lower := by
  induction h with
  | here opens => exact .deeper opens hother (.here hopens)
  | deeper opens listed _ ih => exact .deeper opens listed (ih hother hopens)

/-- What is opened below is bounded as well. -/
theorem Bounded.opened (h : memo.Bounded pattern id) (hopens : memo.Opens pattern id below group)
    (hother : other ∈ memo.alternativesOf group) : memo.Bounded below other :=
  fun deepest lower hexpands => h deepest lower (.deeper hopens hother hexpands)

/-- All groups below one that is opened for whole subtrees are opened. -/
theorem Expands.of_descends (h : memo.Expands pattern id below group) (hwhole : below.isWhole = true)
    {lower : GroupId} (hdescends : Relation.ReflTransGen memo.LeadsDown group lower) :
    ∃ deepest : Pattern, deepest.isWhole = true ∧ memo.Expands pattern id deepest lower := by
  induction hdescends with
  | refl => exact ⟨below, hwhole, h⟩
  | @tail middle lower _ hstep ih =>
      obtain ⟨deepest, hdeepest, hexpands⟩ := ih
      obtain ⟨other, hother, expr, hexpr, hphysical, child, hchild, hmaster⟩ := hstep
      obtain ⟨position, hposition⟩ := List.mem_iff_getElem?.mp hchild
      refine ⟨.tree, rfl, hexpands.tail hother ⟨expr, hexpr, ?_, child, position, hposition, ?_, rfl,
        hmaster⟩⟩
      · cases deepest <;> simp_all [Pattern.isWhole, Pattern.admits]
      · cases deepest <;> simp_all [Pattern.isWhole, Pattern.child?]

/-! ## Levels -/

/-- No tree at the alternative has more levels than the given number. -/
def Within (memo : Memo) : Nat → Pattern → ExprId → Prop
  | 0, _, _ => False
  | levels + 1, pattern, id => ∀ below group, memo.Opens pattern id below group →
      ∀ other ∈ memo.alternativesOf group, memo.Within levels below other

theorem Within.mono {levels more : Nat} (h : memo.Within levels pattern id) (hle : levels ≤ more) :
    memo.Within more pattern id := by
  induction levels generalizing pattern id more with
  | zero => exact h.elim
  | succ levels ih =>
      obtain ⟨more, rfl⟩ : ∃ less, more = less + 1 := ⟨more - 1, by omega⟩
      intro below group hopens other hother
      exact ih (h below group hopens other hother) (by omega)

open Classical in
/-- The known groups below a group. -/
noncomputable def lower (memo : Memo) (group : GroupId) : Finset Nat :=
  (Finset.range memo.groups.size).filter fun index =>
    Relation.TransGen memo.LeadsDown group ⟨index⟩

theorem lt_of_mem_alternativesOf (h : id ∈ memo.alternativesOf group) :
    group.index < memo.groups.size := by
  by_contra hunknown
  rw [Nat.not_lt, ← group?_eq_none] at hunknown
  simp [alternativesOf, hunknown] at h

/-- A subtree has no more levels than there are groups below its own. -/
theorem within_tree (hacyclic : ∀ below, Relation.ReflTransGen memo.LeadsDown group below →
      ¬ Relation.TransGen memo.LeadsDown below below) (hid : id ∈ memo.alternativesOf group) :
    memo.Within ((memo.lower group).card + 1) .tree id := by
  induction hcard : (memo.lower group).card using Nat.strong_induction_on generalizing group id with
  | _ count ih =>
      rintro below lower ⟨expr, hexpr, hadmits, child, position, hchild, hasked, -, hmaster⟩ other
        hother
      obtain rfl := Option.some.inj hasked
      have hdescends : memo.LeadsDown group lower :=
        ⟨id, hid, expr, hexpr, by simpa [Pattern.admits] using hadmits, child,
          List.mem_of_getElem? hchild, hmaster⟩
      have hacyclicBelow : ∀ below, Relation.ReflTransGen memo.LeadsDown lower below →
          ¬ Relation.TransGen memo.LeadsDown below below := fun below hbelow =>
        hacyclic below (.head hdescends hbelow)
      -- the group below is one of those that its own subtrees do not reach
      have hfewer : (memo.lower lower).card < count := by
        rw [← hcard]
        refine Finset.card_lt_card (Finset.ssubset_iff_of_subset ?_ |>.mpr ⟨lower.index, ?_, ?_⟩)
        · intro index hindex
          simp only [Memo.lower, Finset.mem_filter] at hindex ⊢
          exact ⟨hindex.1, .head hdescends hindex.2⟩
        · simp only [Memo.lower, Finset.mem_filter, Finset.mem_range]
          exact ⟨lt_of_mem_alternativesOf hother, .single hdescends⟩
        · simp only [Memo.lower, Finset.mem_filter, not_and]
          exact fun _ => hacyclicBelow lower .refl
      exact (ih _ hfewer hacyclicBelow hother rfl).mono (by omega)

/-- The bound that the search for trees works with. -/
theorem Bounded.within (h : memo.Bounded pattern id) :
    memo.Within (memo.treeDepth pattern) pattern id := by
  suffices hall : ∀ levels, ∀ pattern : Pattern, pattern.height ≤ levels → ∀ id,
      memo.Bounded pattern id → memo.Within (memo.groups.size + levels) pattern id from
    hall pattern.height pattern le_rfl id h
  intro levels
  induction levels with
  | zero => exact fun pattern hheight => absurd pattern.height_pos (by omega)
  | succ levels ih =>
      intro pattern hheight id h below group hopens other hother
      have ⟨_, _, _, _, _, _, hasked, _⟩ := hopens
      rcases Pattern.height_of_child? hasked with hlower | rfl
      · exact ih below (by omega) other (h.opened hopens hother)
      · have hacyclic : ∀ lower, Relation.ReflTransGen memo.LeadsDown group lower →
            ¬ Relation.TransGen memo.LeadsDown lower lower := by
          intro lower hlower
          obtain ⟨deepest, hdeepest, hexpands⟩ := (Expands.here hopens).of_descends rfl hlower
          exact h deepest lower hexpands hdeepest
        refine (within_tree hacyclic hother).mono ?_
        have hcard : (memo.lower group).card < memo.groups.size := by
          have hknown := lt_of_mem_alternativesOf hother
          calc (memo.lower group).card
              ≤ ((Finset.range memo.groups.size).erase group.index).card := by
                refine Finset.card_le_card fun index hindex => ?_
                simp only [Memo.lower, Finset.mem_filter, Finset.mem_range] at hindex
                refine Finset.mem_erase.mpr ⟨?_, Finset.mem_range.mpr hindex.1⟩
                rintro rfl
                exact hacyclic group .refl hindex.2
            _ < memo.groups.size := by
                rw [Finset.card_erase_of_mem (Finset.mem_range.mpr hknown), Finset.card_range]
                omega
        change (memo.lower group).card + 1 ≤ memo.groups.size + levels
        omega

/-- Every pattern is bounded if the children of each alternative have lower numbers than its
group. -/
theorem Consistent.bounded (h : memo.Consistent)
    (hlower : ∀ id expr, memo.expr? id = some expr → ∀ child ∈ expr.children,
      (memo.master child).index < expr.group.index) (pattern : Pattern) (id : ExprId) :
    memo.Bounded pattern id := by
  intro below group _ _ hcycle
  have hfall {upper lower : GroupId} (hbelow : Relation.TransGen memo.LeadsDown upper lower) :
      lower.index < upper.index := by
    have hstep {upper lower : GroupId} (hstep : memo.LeadsDown upper lower) :
        lower.index < upper.index := by
      obtain ⟨id, hid, expr, hexpr, _, child, hchild, rfl⟩ := hstep
      obtain ⟨_, owned, howned, rfl⟩ := h.owned hid
      obtain rfl := Option.some.inj (hexpr.symm.trans howned)
      exact hlower id expr hexpr child hchild
    induction hbelow with
    | single hlast => exact hstep hlast
    | tail _ hlast ih => exact (hstep hlast).trans ih
  exact (hfall hcycle).ne rfl

/-! ## Looking groups up -/

variable {memo' : Memo}

mutual

/-- The trees depend on the content of the memo only. -/
theorem TreesAt.congr (hsame : SameContent memo memo') (hends : memo.LinksEnd) :
    ∀ {pattern : Pattern} {id : ExprId} {trees : List BoundExpr}, memo.TreesAt pattern id trees →
      memo'.TreesAt pattern id trees
  | _, _, _, .refused refused => .refused fun expr' hexpr' => by
      obtain ⟨expr, hexpr, hcontent⟩ := hsame.exists_expr_before hexpr'
      rw [show expr'.op = expr.op from congrArg (·.op) hcontent, MemoExpr.arity,
        show expr'.children = expr.children from congrArg (·.children) hcontent]
      exact refused expr hexpr
  | pattern, _, _, @TreesAt.admitted _ _ _ expr combinations found admitted below => by
      obtain ⟨expr', hexpr', hcontent⟩ := hsame.exists_expr found
      have hop : expr'.op = expr.op := congrArg (·.op) hcontent
      have hchildren : expr'.children = expr.children := congrArg (·.children) hcontent
      have hgroup : expr'.group = expr.group := congrArg (·.group) hcontent
      have hbelow : memo'.TreesBelow pattern 0 expr'.children combinations :=
        hchildren ▸ TreesBelow.congr hsame hends below
      have hall := TreesAt.admitted hexpr' (by rwa [hop, MemoExpr.arity, hchildren]) hbelow
      rwa [hop, hgroup, hsame.master hends] at hall

theorem TreesAmong.congr (hsame : SameContent memo memo') (hends : memo.LinksEnd) :
    ∀ {pattern : Pattern} {ids : List ExprId} {trees : List BoundExpr},
    memo.TreesAmong pattern ids trees → memo'.TreesAmong pattern ids trees
  | _, _, _, .nil => .nil
  | _, _, _, .cons first rest => .cons (TreesAt.congr hsame hends first) (TreesAmong.congr hsame hends rest)

theorem TreesIn.congr (hsame : SameContent memo memo') (hends : memo.LinksEnd) :
    ∀ {pattern : Pattern} {group : GroupId} {trees : List BoundExpr},
    memo.TreesIn pattern group trees → memo'.TreesIn pattern group trees
  | _, _, _, .leaf whole => .leaf whole
  | _, group, _, .expanded opened among =>
      .expanded opened ((hsame.alternativesOf group).symm ▸ TreesAmong.congr hsame hends among)

theorem TreesBelow.congr (hsame : SameContent memo memo') (hends : memo.LinksEnd) :
    ∀ {pattern : Pattern} {position : Nat} {children : List GroupId}
    {combinations : List (List BoundExpr)},
    memo.TreesBelow pattern position children combinations →
      memo'.TreesBelow pattern position children combinations
  | _, _, _, _, .nil => .nil
  | _, _, child :: _, _, .cons asked first rest =>
      .cons asked (hsame.master hends child ▸ TreesIn.congr hsame hends first)
        (TreesBelow.congr hsame hends rest)

end

theorem Opens.before (hsame : SameContent memo memo') (hends : memo.LinksEnd)
    (h : memo'.Opens pattern id below group) : memo.Opens pattern id below group := by
  obtain ⟨expr', hexpr', hadmits, child, position, hchild, hasked, hopen, hmaster⟩ := h
  obtain ⟨expr, hexpr, hcontent⟩ := hsame.exists_expr_before hexpr'
  have hchildren : expr'.children = expr.children := congrArg (·.children) hcontent
  rw [MemoExpr.arity, hchildren, show expr'.op = expr.op from congrArg (·.op) hcontent] at hadmits
  exact ⟨expr, hexpr, hadmits, child, position, hchildren ▸ hchild, hasked, hopen,
    hsame.master hends child ▸ hmaster⟩

theorem LeadsDown.before (hsame : SameContent memo memo') (hends : memo.LinksEnd)
    {upper lower : GroupId} (h : memo'.LeadsDown upper lower) : memo.LeadsDown upper lower := by
  obtain ⟨id, hid, expr', hexpr', hphysical, child, hchild, hmaster⟩ := h
  obtain ⟨expr, hexpr, hcontent⟩ := hsame.exists_expr_before hexpr'
  have hchildren : expr'.children = expr.children := congrArg (·.children) hcontent
  rw [show expr'.op = expr.op from congrArg (·.op) hcontent] at hphysical
  exact ⟨id, hsame.alternativesOf upper ▸ hid, expr, hexpr, hphysical, child, hchildren ▸ hchild,
    hsame.master hends child ▸ hmaster⟩

theorem Expands.before (hsame : SameContent memo memo') (hends : memo.LinksEnd)
    (h : memo'.Expands pattern id below group) : memo.Expands pattern id below group := by
  induction h with
  | here opens => exact .here (opens.before hsame hends)
  | deeper opens listed _ ih =>
      exact .deeper (opens.before hsame hends) (hsame.alternativesOf _ ▸ listed) ih

/-- Looking groups up opens no others. -/
theorem Bounded.sameContent (hsame : SameContent memo memo') (hends : memo.LinksEnd)
    (h : memo.Bounded pattern id) : memo'.Bounded pattern id := fun below group hexpands hwhole hcycle =>
  h below group (hexpands.before hsame hends) hwhole
    (hcycle.lift (fun group => group) fun _ _ hstep => hstep.before hsame hends)

end Memo

end QueryPlanner
