import AvalancheParallel.IdBits

/-!
# Groups of identifiers with a common bit prefix

`default/snow/consensus/snowman/poll/prefix.go`. A group of identifiers that agree on
their first bits is split on the first bit in which two of them differ, until each group
has one member. The source keeps the groups still to be split in a list and splits them
in place; each is split on its own, so the model recurses into the two parts.

Every set of identifiers picked from a list by a common prefix is a single identifier or
the members of a group that has been split.
-/

namespace AvalancheParallel.Poll

open AvalancheParallel.Ids

/-- `prefixGroup`, after splitting: it has both children or none. -/
inductive PrefixGroup where
  | whole (index : ℕ) (members : List ID)
  | bifurcation (index : ℕ) (members : List ID) (zero one : PrefixGroup)

/-- `deduplicate`: the first occurrence of each identifier. -/
def deduplicate (ids : List ID) : List ID :=
  (ids.foldl (fun (kept : Finset ID × List ID) id =>
    if id ∈ kept.1 then kept else (insert id kept.1, kept.2 ++ [id])) (∅, [])).2

/-- `canSplit`. -/
def canSplit (members : List ID) : Bool := decide (1 < members.length)

/-- `split`: the members with a zero and with a one at the bit. -/
def split (index : ℕ) (members : List ID) : List ID × List ID :=
  (members.filter (fun member => !member.bit index),
    members.filter (fun member => member.bit index))

/-- `determineDescendant`: the part that has members. -/
def determineDescendant (parts : List ID × List ID) : List ID :=
  if parts.1.isEmpty then parts.2 else parts.1

/-- The loops of `longestSharedPrefixes`, with the number of bits left. A group that is not
split in two becomes its descendant. -/
def splitGroup : ℕ → ℕ → List ID → PrefixGroup
  | 0, index, members => .whole index members
  | bits + 1, index, members =>
    if canSplit members then
      let parts := split index members
      if !parts.1.isEmpty && !parts.2.isEmpty then
        .bifurcation index members (splitGroup bits (index + 1) parts.1)
          (splitGroup bits (index + 1) parts.2)
      else splitGroup bits (index + 1) (determineDescendant parts)
    else .whole index members

/-- `longestSharedPrefixes`. -/
def longestSharedPrefixes (idList : List ID) : PrefixGroup :=
  splitGroup numBits 0 (deduplicate idList)

/-- `bifurcationsWithCommonPrefix`: the members of the groups on which its argument is
invoked. -/
def PrefixGroup.bifurcationsWithCommonPrefix : PrefixGroup → List (List ID)
  | .whole _ _ => []
  | .bifurcation index members zero one =>
    (if 0 < index then [members] else []) ++ zero.bifurcationsWithCommonPrefix ++
      one.bifurcationsWithCommonPrefix

/-- IDs without repetitions are left as they are. -/
theorem deduplicate_eq_self {ids : List ID} (distinct : ids.Nodup) : deduplicate ids = ids := by
  have kept : ids.foldl (fun (kept : Finset ID × List ID) id =>
      if id ∈ kept.1 then kept else (insert id kept.1, kept.2 ++ [id])) (∅, []) =
      (ids.toFinset, ids) := by
    induction ids using List.reverseRecOn with
    | nil => rfl
    | append_singleton front last inductionHypothesis =>
      have separate := List.nodup_append'.mp distinct
      have fresh : last ∉ front := fun earlier => separate.2.2 earlier List.mem_cons_self
      rw [List.foldl_append, inductionHypothesis separate.1]
      simp [fresh]
  rw [deduplicate, kept]

/-- The identifier has the same first bits as another. -/
def agrees (length : ℕ) (model id : ID) : Bool :=
  decide (∀ index < length, id.bit index = model.bit index)

/-- The test compares the first bits. -/
theorem agrees_iff {length : ℕ} {model id : ID} :
    agrees length model id = true ↔ ∀ index < length, id.bit index = model.bit index :=
  decide_eq_true_iff

/-- When the parts are not both nonempty, the group is one of them. -/
theorem determineDescendant_split {index : ℕ} {members : List ID}
    (single : (!(split index members).1.isEmpty && !(split index members).2.isEmpty) = false) :
    determineDescendant (split index members) = members ∧
      ∀ first ∈ members, ∀ second ∈ members, first.bit index = second.bit index := by
  unfold determineDescendant
  split
  · rename_i empty
    have ones : ∀ member ∈ members, member.bit index = true := by
      simpa [split] using empty
    refine ⟨by simpa [split] using ones, ?_⟩
    intro first firstMember second secondMember
    rw [ones first firstMember, ones second secondMember]
  · rename_i nonempty
    have zeros : ∀ member ∈ members, member.bit index = false := by
      simp only [nonempty, Bool.not_false, Bool.true_and] at single
      simpa [split] using single
    refine ⟨by simpa [split] using zeros, ?_⟩
    intro first firstMember second secondMember
    rw [zeros first firstMember, zeros second secondMember]

/-- The members have the same first bits. -/
def Shared (length : ℕ) (members : List ID) : Prop :=
  ∀ first ∈ members, ∀ second ∈ members, ∀ index < length, first.bit index = second.bit index

/-- Members that also agree on the next bit share one bit more. -/
theorem Shared.next {length : ℕ} {members part : List ID} (shared : Shared length members)
    (inside : part ⊆ members)
    (same : ∀ first ∈ part, ∀ second ∈ part, first.bit length = second.bit length) :
    Shared (length + 1) part := by
  intro first firstMember second secondMember index below
  by_cases last : index = length
  · rw [last]
    exact same first firstMember second secondMember
  · exact shared first (inside firstMember) second (inside secondMember) index (by omega)

/-- The identifiers are distinct, so they do not share all bits. -/
theorem Shared.short {members : List ID} (shared : Shared numBits members)
    (distinct : members.Nodup) : members.length ≤ 1 := by
  cases members with
  | nil => exact Nat.zero_le 1
  | cons first rest =>
    cases rest with
    | nil => exact Nat.le_refl 1
    | cons second others =>
      have equal : first = second := ID.eq_of_bit_eq (shared first (by simp) second (by simp))
      simp [equal] at distinct

/-- When the shared bits include the prefix, all members have it or none has. -/
theorem Shared.filter_agrees {length index : ℕ} {members : List ID} (shared : Shared index members)
    (covered : length ≤ index) {model : ID} (found : members.filter (agrees length model) ≠ []) :
    members.filter (agrees length model) = members := by
  obtain ⟨sample, member⟩ := List.exists_mem_of_ne_nil _ found
  obtain ⟨listed, agreed⟩ := List.mem_filter.mp member
  refine List.filter_eq_self.mpr ?_
  intro other inside
  rw [agrees_iff] at agreed ⊢
  intro position below
  rw [← agreed position below]
  exact shared other inside sample listed position (by omega)

/-- The members with a prefix are found in any part that keeps them. -/
theorem filter_filter_agrees {length : ℕ} {model : ID} {keep : ID → Bool}
    (kept : ∀ id, agrees length model id = true → keep id = true) (members : List ID) :
    (members.filter keep).filter (agrees length model) = members.filter (agrees length model) := by
  rw [List.filter_filter]
  refine List.filter_congr ?_
  intro id _
  cases agreed : agrees length model id with
  | false => rfl
  | true => rw [Bool.true_and, kept id agreed]

/-- The members picked by a common prefix are, if there are several, the members of a group
that is split. -/
theorem filter_agrees_mem_bifurcations (bits index : ℕ) (members : List ID)
    (distinct : members.Nodup) (shared : Shared index members) (whole : index + bits = numBits)
    {length : ℕ} (positive : 0 < length) (model : ID)
    (several : 1 < (members.filter (agrees length model)).length) :
    members.filter (agrees length model) ∈
      (splitGroup bits index members).bifurcationsWithCommonPrefix := by
  have many : 1 < members.length := Nat.lt_of_lt_of_le several (List.length_filter_le _ _)
  induction bits generalizing index members with
  | zero =>
    rw [Nat.add_zero] at whole
    exact absurd (Shared.short (whole ▸ shared) distinct) (Nat.not_le_of_lt many)
  | succ bits inductionHypothesis =>
    have splits : canSplit members = true := decide_eq_true many
    rw [splitGroup, if_pos splits]
    dsimp only
    split
    · rw [PrefixGroup.bifurcationsWithCommonPrefix]
      by_cases reached : length ≤ index
      · -- the prefix ends before this split: all members have it
        have found : members.filter (agrees length model) ≠ [] :=
          List.ne_nil_of_length_pos (Nat.lt_of_succ_lt several)
        rw [shared.filter_agrees reached found, if_pos (by omega : 0 < index)]
        simp
      · -- the members with the prefix are in one part
        have within : ∀ keep : ID → Bool, (∀ id, agrees length model id = true → keep id = true) →
            (∀ first second : ID, keep first = true → keep second = true →
              first.bit index = second.bit index) →
            members.filter (agrees length model) ∈
              (splitGroup bits (index + 1) (members.filter keep)).bifurcationsWithCommonPrefix := by
          intro keep kept alike
          rw [← filter_filter_agrees kept members] at several ⊢
          have sharedPart : Shared (index + 1) (members.filter keep) :=
            shared.next List.filter_sublist.subset (fun first firstMember second secondMember =>
              alike first second (List.mem_filter.mp firstMember).2
                (List.mem_filter.mp secondMember).2)
          exact inductionHypothesis (index + 1) _ (distinct.filter _) sharedPart (by omega) several
            (Nat.lt_of_lt_of_le several (List.length_filter_le _ _))
        have bit : ∀ id, agrees length model id = true → id.bit index = model.bit index :=
          fun id agreed => agrees_iff.mp agreed index (by omega)
        rw [List.append_assoc, List.mem_append, List.mem_append]
        cases side : model.bit index with
        | false =>
          refine Or.inr (Or.inl (within _ ?_ ?_))
          · intro id agreed
            simp [bit id agreed, side]
          · intro first second firstZero secondZero
            simp only [Bool.not_eq_true'] at firstZero secondZero
            rw [firstZero, secondZero]
        | true =>
          refine Or.inr (Or.inr (within _ ?_ ?_))
          · intro id agreed
            rw [bit id agreed, side]
          · intro first second firstOne secondOne
            rw [firstOne, secondOne]
    · rename_i single
      obtain ⟨same, alike⟩ := determineDescendant_split (Bool.not_eq_true _ ▸ single)
      rw [same]
      exact inductionHypothesis (index + 1) members distinct
        (shared.next (List.Subset.refl _) alike) (by omega) several many

/-- What has a prefix in common with an identifier that has it. -/
theorem isPrefix_bits_iff {front : List Bool} {model : ID} (fits : front <+: model.bits) (id : ID) :
    front <+: id.bits ↔ agrees front.length model id = true := by
  have bounded : front.length ≤ numBits := by
    simpa [ID.bits] using fits.length_le
  have taken : ∀ other : ID, front <+: other.bits ↔
      front = (List.range front.length).map other.bit := by
    intro other
    rw [List.prefix_iff_eq_take, ID.bits, ← List.map_take, List.take_range, Nat.min_eq_left bounded]
  have equal := (taken model).mp fits
  rw [taken id, agrees_iff]
  constructor
  · intro here index below
    have both := here.symm.trans equal
    exact List.map_inj_left.mp both index (List.mem_range.mpr below)
  · intro same
    refine equal.trans (List.map_congr_left ?_)
    intro index member
    exact (same index (List.mem_range.mp member)).symm

/-- The members of a list that have a prefix in common are, if there are several, among the
bifurcations with a common prefix. -/
theorem longestSharedPrefixes_law {ids : List ID} (distinct : ids.Nodup) {length : ℕ}
    (positive : 0 < length) (model : ID)
    (several : 1 < (ids.filter (agrees length model)).length) :
    ids.filter (agrees length model) ∈
      (longestSharedPrefixes ids).bifurcationsWithCommonPrefix := by
  rw [longestSharedPrefixes, deduplicate_eq_self distinct]
  refine filter_agrees_mem_bifurcations numBits 0 ids distinct ?_ (Nat.zero_add _) positive model
    several
  intro first _ second _ index below
  exact absurd below (Nat.not_lt_zero index)

end AvalancheParallel.Poll
