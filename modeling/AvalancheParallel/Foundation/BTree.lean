import Mathlib.Data.List.Nodup

/-!
# Search trees known by their calls

A program that keeps its items in a search tree of another package knows the tree by its calls
and by what their documentation promises. The class `BTreeG` has the calls, `LawfulBTreeG` has
the promises: the tree holds its items in the strict order of a comparison, an inserted item
takes the place of its equal, the equal of an item is removed, and an iteration visits the items
on one side of a pivot in order.

The items may be references, and then the comparison reads what they refer to and can answer
differently from call to call. So each call is given the comparison as it answers at that call,
and a promise is kept only if the items are in the order of that comparison.

A sequence in the order of a comparison is the simplest such tree.
-/

namespace AvalancheParallel

universe u v

/-- The calls of a search tree. An iteration is given as the items that are visited unless the
function that visits them stops. -/
class BTreeG (α : outParam (Type u)) (B : Type v) where
  /-- A new tree of a degree. -/
  newG : ℕ → B
  replaceOrInsert : (α → α → Bool) → α → B → B
  delete : (α → α → Bool) → α → B → B
  ascend : B → List α
  ascendGreaterOrEqual : (α → α → Bool) → α → B → List α
  descendLessOrEqual : (α → α → Bool) → α → B → List α

namespace BTreeG

/-- The comparison is a strict order; items that are not comparable are equal for the tree. -/
structure Compares {α : Type u} (less : α → α → Bool) : Prop where
  irreflexive : ∀ a, less a a = false
  transitive : ∀ a b c, less a b = true → less b c = true → less a c = true
  between : ∀ a b c, less a c = true → less a b = true ∨ less b c = true

/-- The items are in the strict order of the comparison. -/
abbrev InOrder {α : Type u} (less : α → α → Bool) (items : List α) : Prop :=
  items.Pairwise (fun a b => less a b = true)

end BTreeG

open BTreeG

/-- What the calls of a search tree promise. -/
class LawfulBTreeG (α : outParam (Type u)) (B : Type v) [BTreeG α B] : Prop where
  ascend_newG : ∀ degree, 1 < degree → ascend (newG degree : B) = []
  inOrder_replaceOrInsert : ∀ {less : α → α → Bool} {tree : B}, Compares less →
    InOrder less (ascend tree) → ∀ item, InOrder less (ascend (replaceOrInsert less item tree))
  mem_replaceOrInsert : ∀ {less : α → α → Bool} {tree : B}, Compares less →
    InOrder less (ascend tree) → ∀ item other,
      (other ∈ ascend (replaceOrInsert less item tree) ↔
        other = item ∨ other ∈ ascend tree ∧ (less other item = true ∨ less item other = true))
  inOrder_delete : ∀ {less : α → α → Bool} {tree : B}, Compares less →
    InOrder less (ascend tree) → ∀ item, InOrder less (ascend (delete less item tree))
  mem_delete : ∀ {less : α → α → Bool} {tree : B}, Compares less →
    InOrder less (ascend tree) → ∀ item other,
      (other ∈ ascend (delete less item tree) ↔
        other ∈ ascend tree ∧ (less other item = true ∨ less item other = true))
  ascendGreaterOrEqual_eq : ∀ {less : α → α → Bool} {tree : B}, Compares less →
    InOrder less (ascend tree) → ∀ pivot,
      ascendGreaterOrEqual less pivot tree =
        (ascend tree).filter (fun item => !less item pivot)
  descendLessOrEqual_eq : ∀ {less : α → α → Bool} {tree : B}, Compares less →
    InOrder less (ascend tree) → ∀ pivot,
      descendLessOrEqual less pivot tree =
        ((ascend tree).filter (fun item => !less pivot item)).reverse

namespace BTreeG

variable {α : Type u} {less : α → α → Bool}

/-! ## Sequences in order -/

/-- Nothing is below what is below it. -/
theorem Compares.asymmetric (compares : Compares less) {a b : α} (below : less a b = true) :
    less b a = false := by
  apply Bool.eq_false_iff.mpr
  intro above
  have same := compares.transitive a b a below above
  rw [compares.irreflexive a] at same
  cases same

/-- A sequence in order is cut at a pivot: what is below it comes first. -/
theorem InOrder.exists_cut (compares : Compares less) {items : List α}
    (ordered : InOrder less items) (pivot : α) :
    ∃ front back, items = front ++ back ∧ (∀ item ∈ front, less item pivot = true) ∧
      ∀ item ∈ back, less item pivot = false := by
  induction items with
  | nil => exact ⟨[], [], rfl, by simp, by simp⟩
  | cons first rest inductionHypothesis =>
    obtain ⟨before, later⟩ := List.pairwise_cons.mp ordered
    cases below : less first pivot with
    | true =>
      obtain ⟨front, back, rfl, low, high⟩ := inductionHypothesis later
      exact ⟨first :: front, back, rfl, by simpa [below] using low, high⟩
    | false =>
      refine ⟨[], first :: rest, rfl, by simp, ?_⟩
      intro item member
      rcases List.mem_cons.mp member with rfl | inside
      · exact below
      · apply Bool.eq_false_iff.mpr
        intro above
        rw [compares.transitive _ _ _ (before item inside) above] at below
        cases below

/-- A sequence in order repeats no item. -/
theorem InOrder.nodup (compares : Compares less) {items : List α} (ordered : InOrder less items) :
    items.Nodup := by
  apply ordered.imp
  rintro a b below rfl
  rw [compares.irreflexive a] at below
  cases below

/-- Sequences in order with the same items are the same. -/
theorem InOrder.ext (compares : Compares less) {first second : List α}
    (ordered : InOrder less first) (alsoOrdered : InOrder less second)
    (same : ∀ item, item ∈ first ↔ item ∈ second) : first = second := by
  have permuted : first.Perm second :=
    (List.perm_ext_iff_of_nodup (ordered.nodup compares) (alsoOrdered.nodup compares)).mpr same
  apply permuted.eq_of_pairwise _ ordered alsoOrdered
  intro a b _ _ below above
  rw [compares.asymmetric below] at above
  cases above

/-- An item fits between those below it and those above it. -/
theorem InOrder.insert {front back : List α} (ordered : InOrder less (front ++ back)) {item : α}
    (low : ∀ other ∈ front, less other item = true)
    (high : ∀ other ∈ back, less item other = true) : InOrder less (front ++ item :: back) := by
  obtain ⟨inFront, inBack, between⟩ := List.pairwise_append.mp ordered
  refine List.pairwise_append.mpr ⟨inFront, List.pairwise_cons.mpr ⟨high, inBack⟩, ?_⟩
  intro a member b other
  rcases List.mem_cons.mp other with rfl | later
  · exact low a member
  · exact between a member b later

/-! ## Calls on a tree cut at an item -/

section Cut

variable {B : Type v} [BTreeG α B] [LawfulBTreeG α B] {tree : B} {front back : List α}

/-- The first item from a pivot on. -/
theorem head?_ascendGreaterOrEqual (compares : Compares less)
    (ordered : InOrder less (ascend tree)) (cut : ascend tree = front ++ back) {pivot : α}
    (low : ∀ item ∈ front, less item pivot = true)
    (high : ∀ item ∈ back, less item pivot = false) :
    (ascendGreaterOrEqual less pivot tree).head? = back.head? := by
  have none : front.filter (fun item => !less item pivot) = [] := by
    apply List.filter_eq_nil_iff.mpr
    intro item member
    simp [low item member]
  have all : back.filter (fun item => !less item pivot) = back := by
    apply List.filter_eq_self.mpr
    intro item member
    simp [high item member]
  rw [LawfulBTreeG.ascendGreaterOrEqual_eq compares ordered, cut, List.filter_append, none, all,
    List.nil_append]

/-- The last item up to a pivot. -/
theorem head?_descendLessOrEqual (compares : Compares less)
    (ordered : InOrder less (ascend tree)) (cut : ascend tree = front ++ back) {pivot : α}
    (low : ∀ item ∈ front, less pivot item = false)
    (high : ∀ item ∈ back, less pivot item = true) :
    (descendLessOrEqual less pivot tree).head? = front.getLast? := by
  have all : front.filter (fun item => !less pivot item) = front := by
    apply List.filter_eq_self.mpr
    intro item member
    simp [low item member]
  have none : back.filter (fun item => !less pivot item) = [] := by
    apply List.filter_eq_nil_iff.mpr
    intro item member
    simp [high item member]
  rw [LawfulBTreeG.descendLessOrEqual_eq compares ordered, cut, List.filter_append, none, all,
    List.append_nil, List.head?_reverse]

/-- An item without an equal goes between those below and those above it. -/
theorem ascend_replaceOrInsert (compares : Compares less)
    (ordered : InOrder less (ascend tree)) (cut : ascend tree = front ++ back) {item : α}
    (low : ∀ other ∈ front, less other item = true)
    (high : ∀ other ∈ back, less item other = true) :
    ascend (replaceOrInsert less item tree) = front ++ item :: back := by
  apply (LawfulBTreeG.inOrder_replaceOrInsert compares ordered item).ext compares
    (InOrder.insert (cut ▸ ordered) low high)
  intro other
  rw [LawfulBTreeG.mem_replaceOrInsert compares ordered, cut]
  simp only [List.mem_append, List.mem_cons]
  constructor
  · rintro (rfl | ⟨inFront | inBack, _⟩)
    · exact Or.inr (Or.inl rfl)
    · exact Or.inl inFront
    · exact Or.inr (Or.inr inBack)
  · rintro (inFront | rfl | inBack)
    · exact Or.inr ⟨Or.inl inFront, Or.inl (low other inFront)⟩
    · exact Or.inl rfl
    · exact Or.inr ⟨Or.inr inBack, Or.inr (high other inBack)⟩

/-- An item of the tree is taken out from between those below and those above it. -/
theorem ascend_delete (compares : Compares less) (ordered : InOrder less (ascend tree)) {item : α}
    (cut : ascend tree = front ++ item :: back) :
    ascend (delete less item tree) = front ++ back := by
  have pairwise := ordered
  rw [cut] at pairwise
  obtain ⟨inFront, later, between⟩ := List.pairwise_append.mp pairwise
  obtain ⟨high, inBack⟩ := List.pairwise_cons.mp later
  have low : ∀ other ∈ front, less other item = true :=
    fun other member => between other member item List.mem_cons_self
  have remains : InOrder less (front ++ back) := List.pairwise_append.mpr
    ⟨inFront, inBack, fun a member b other => between a member b (List.mem_cons_of_mem _ other)⟩
  apply (LawfulBTreeG.inOrder_delete compares ordered item).ext compares remains
  intro other
  rw [LawfulBTreeG.mem_delete compares ordered, cut]
  simp only [List.mem_append, List.mem_cons]
  constructor
  · rintro ⟨inside | rfl | inside, apart⟩
    · exact Or.inl inside
    · rw [compares.irreflexive other] at apart
      simp at apart
    · exact Or.inr inside
  · rintro (inside | inside)
    · exact ⟨Or.inl inside, Or.inl (low other inside)⟩
    · exact ⟨Or.inr (Or.inr inside), Or.inr (high other inside)⟩

end Cut

/-! ## The sequence itself -/

/-- An item is put in the place of its equal, or where it belongs. -/
def place (less : α → α → Bool) (item : α) : List α → List α
  | [] => [item]
  | other :: rest =>
    if less other item then other :: place less item rest
    else if less item other then item :: other :: rest
    else item :: rest

/-- A sequence with the calls of a search tree. -/
instance listBTreeG : BTreeG α (List α) where
  newG _ := []
  replaceOrInsert := place
  delete less item items := items.filter (fun other => less other item || less item other)
  ascend items := items
  ascendGreaterOrEqual less pivot items := items.filter (fun item => !less item pivot)
  descendLessOrEqual less pivot items := (items.filter (fun item => !less pivot item)).reverse

/-- What is placed into a sequence in order, and what stays there. -/
theorem mem_place (compares : Compares less) {items : List α} (ordered : InOrder less items)
    (item other : α) :
    other ∈ place less item items ↔
      other = item ∨ other ∈ items ∧ (less other item = true ∨ less item other = true) := by
  induction items with
  | nil => simp [place]
  | cons first rest inductionHypothesis =>
    obtain ⟨before, later⟩ := List.pairwise_cons.mp ordered
    rw [place]
    split
    · rename_i below
      rw [List.mem_cons, List.mem_cons, inductionHypothesis later]
      constructor
      · rintro (rfl | rfl | ⟨inside, apart⟩)
        · exact Or.inr ⟨Or.inl rfl, Or.inl below⟩
        · exact Or.inl rfl
        · exact Or.inr ⟨Or.inr inside, apart⟩
      · rintro (rfl | ⟨rfl | inside, apart⟩)
        · exact Or.inr (Or.inl rfl)
        · exact Or.inl rfl
        · exact Or.inr (Or.inr ⟨inside, apart⟩)
    · rename_i notBelow
      have high : ∀ next ∈ rest, less item next = true := by
        intro next inside
        exact (compares.between first item next (before next inside)).resolve_left notBelow
      split
      · rename_i above
        rw [List.mem_cons, List.mem_cons]
        constructor
        · rintro (rfl | rfl | inside)
          · exact Or.inl rfl
          · exact Or.inr ⟨Or.inl rfl, Or.inr above⟩
          · exact Or.inr ⟨Or.inr inside, Or.inr (high other inside)⟩
        · rintro (rfl | ⟨inside, _⟩)
          · exact Or.inl rfl
          · exact Or.inr inside
      · rename_i notAbove
        rw [List.mem_cons, List.mem_cons]
        constructor
        · rintro (rfl | inside)
          · exact Or.inl rfl
          · exact Or.inr ⟨Or.inr inside, Or.inr (high other inside)⟩
        · rintro (rfl | ⟨rfl | inside, apart⟩)
          · exact Or.inl rfl
          · exact absurd apart (not_or_intro notBelow notAbove)
          · exact Or.inr inside

/-- Placing an item keeps the order. -/
theorem inOrder_place (compares : Compares less) {items : List α} (ordered : InOrder less items)
    (item : α) : InOrder less (place less item items) := by
  induction items with
  | nil => exact List.pairwise_singleton _ _
  | cons first rest inductionHypothesis =>
    obtain ⟨before, later⟩ := List.pairwise_cons.mp ordered
    rw [place]
    split
    · rename_i below
      refine List.pairwise_cons.mpr ⟨?_, inductionHypothesis later⟩
      intro other member
      rcases (mem_place compares later item other).mp member with rfl | ⟨inside, _⟩
      · exact below
      · exact before other inside
    · rename_i notBelow
      have high : ∀ next ∈ rest, less item next = true := by
        intro next inside
        exact (compares.between first item next (before next inside)).resolve_left notBelow
      split
      · rename_i above
        exact List.pairwise_cons.mpr ⟨List.forall_mem_cons.mpr ⟨above, high⟩, ordered⟩
      · exact List.pairwise_cons.mpr ⟨high, later⟩

/-- A sequence keeps the promises of a search tree. -/
instance lawful_listBTreeG : LawfulBTreeG α (List α) where
  ascend_newG _ _ := rfl
  inOrder_replaceOrInsert compares ordered item := inOrder_place compares ordered item
  mem_replaceOrInsert compares ordered item other := mem_place compares ordered item other
  inOrder_delete _ ordered _ := ordered.filter _
  mem_delete _ _ item other := by simp [ascend, delete]
  ascendGreaterOrEqual_eq _ _ _ := rfl
  descendLessOrEqual_eq _ _ _ := rfl

end BTreeG

end AvalancheParallel
