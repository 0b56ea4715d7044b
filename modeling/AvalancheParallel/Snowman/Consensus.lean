import AvalancheParallel.Foundation.Runs
import AvalancheParallel.Snowman.VoteLoop

/-!
# Runs of Topological

Sequences of calls of `Add` and `RecordPoll` on an initialized `Topological`. The blocks
that are added are named by a lineage, so that each is one higher than its parent, and a
bag holds at most `K` votes. Every call returns, and after every call the tree and the
lists of calls agree and what is kept of the preferred branch is the preferred branch.
-/

namespace AvalancheParallel.Snowman

open AvalancheParallel.Ids AvalancheParallel.RangeLoop AvalancheParallel.Snowball
open AvalancheParallel.ParentTree AvalancheParallel.Runs

variable {F : Factory} {l : Lineage} {genesis : ID} {params : Parameters}

/-- The blocks have the height of their parent plus one, and bags have at most `k` votes. -/
def Call.Admissible (l : Lineage) (k : ℤ) : Call → Prop
  | .add blk => l.Names blk
  | .recordPoll _ bag => (bag.card : ℤ) ≤ k

/-- What every call keeps. -/
def Sound (l : Lineage) (genesis : ID) (params : Parameters) (state : Option (Topological F)) :
    Prop :=
  ∃ ts path, state = some ts ∧ Recorded l genesis ts ∧ Prefers l ts path ∧ ts.params = params

/-- The initial tree is the last accepted block. -/
theorem initializeAt_sound {ts : Topological F}
    (started : Topological.initializeAt params genesis (l.height genesis) = .ok ts) :
    params.verify = none ∧ Sound l genesis params (some ts) := by
  unfold Topological.initializeAt at started
  cases verified : params.verify with
  | some error =>
    rw [verified] at started
    cases started
  | none =>
    rw [verified] at started
    cases started
    have grounded : Grounded l genesis _ := Grounded.single (F := F) l genesis
    have choice_genesis : choice ((∅ : GoMap ID (SnowmanBlock F)).insert genesis
        ⟨none, false, none, ∅⟩) genesis = none := by
      rw [choice_insert, if_pos rfl]
      rfl
    refine ⟨rfl, _, [], rfl, ?_, ⟨⟨List.isChain_singleton _, choice_genesis⟩, rfl,
      Caches.empty l⟩, rfl⟩
    constructor
    case grounded => exact grounded
    case height => rfl
    case named => exact fun _ impossible => absurd impossible List.not_mem_nil
    case chain => exact List.isChain_singleton _
    case last => rfl
    case rejected => exact fun _ impossible => absurd impossible List.not_mem_nil
    case processing =>
      intro id
      refine iff_of_false ?_ (fun issued => absurd issued.1 List.not_mem_nil)
      rintro ⟨member, other⟩
      cases Finmap.mem_insert.mp member with
      | inl same => exact other same
      | inr impossible => exact absurd impossible Finmap.notMem_empty
    case nodup => exact List.nodup_nil

/-- A call returns and keeps what is to be kept. -/
theorem call_sound (valid : params.verify = none) (state : Option (Topological F)) (action : Call)
    (admissible : action.Admissible l params.k) (sound : Sound l genesis params state) :
    Sound l genesis params (call state action) := by
  obtain ⟨ts, path, rfl, recorded, prefers, rfl⟩ := sound
  cases action with
  | add blk =>
    obtain ⟨error, failed⟩ | ⟨fresh, parentNode, found, added⟩ :=
      Topological.add_law recorded.grounded admissible
    · exact ⟨ts, path, by rw [call, failed], recorded, prefers, rfl⟩
    · obtain ⟨longer, extended⟩ := prefers.extended recorded admissible fresh found
      exact ⟨ts.extended blk parentNode, longer, by rw [call, added],
        recorded.extended admissible fresh found, extended, Topological.extended_params ..⟩
  | recordPoll orders bag =>
    obtain ⟨after, rest, result, outcome⟩ := recordPoll_law orders recorded prefers valid admissible
    exact ⟨after, rest, result, outcome⟩

/-- Every state of a run is sound. -/
theorem always_sound {ts : Topological F}
    (started : Topological.initializeAt params genesis (l.height genesis) = .ok ts)
    {calls : List Call} (admissible : ∀ action ∈ calls, action.Admissible l params.k) :
    Always call (Sound l genesis params) (some ts) calls := by
  obtain ⟨valid, sound⟩ := initializeAt_sound started
  exact Along.always call (Sound l genesis params) (call_sound valid)
    (Along.of_forall call (some ts) admissible) sound

/-- The block is connected to the root by parents that are in the map. -/
inductive Descends (blocks : GoMap ID (SnowmanBlock F)) (root : ID) : ID → Prop where
  | child {id : ID} {n : SnowmanBlock F} {blk : Block} (found : blocks.lookup id = some n)
      (block : n.blk = some blk) (parent : blk.parent = root) : Descends blocks root id
  | step {id : ID} {n : SnowmanBlock F} {blk : Block} (found : blocks.lookup id = some n)
      (block : n.blk = some blk) (parent : Descends blocks root blk.parent) :
      Descends blocks root id

/-- One chain is accepted: each accepted block is a child of the one accepted before it, no block
is decided twice, and the map holds the last accepted block and the blocks that were issued and
not decided, which descend from it. -/
structure AcceptsOneChain (genesis : ID) (ts : Topological F) : Prop where
  child : ∀ front blk back, ts.accepted = front ++ blk :: back →
    blk.parent = (ids front).getLastD genesis
  last : ts.lastAcceptedID = (ids ts.accepted).getLastD genesis
  once : (ids ts.accepted ++ ids ts.rejected).Nodup
  blocks : ∀ id, id ∈ ts.blocks ↔ id = ts.lastAcceptedID ∨
    id ∈ ids ts.issued ∧ id ∉ ids ts.accepted ∧ id ∉ ids ts.rejected
  descends : ∀ id, id ∈ ids ts.issued ∧ id ∉ ids ts.accepted ∧ id ∉ ids ts.rejected →
    Descends ts.blocks ts.lastAcceptedID id

/-- Every other block descends from the last accepted one. -/
theorem Grounded.descends {root : ID} {blocks : GoMap ID (SnowmanBlock F)}
    (grounded : Grounded l root blocks) :
    ∀ id ∈ blocks.keys, id ≠ root → Descends blocks root id := by
  refine grounded.rooted.induction ?_ ?_
  · exact fun absurdity => absurd rfl absurdity
  · intro id member other up _
    obtain ⟨n, found⟩ := Finmap.mem_iff.mp (Finmap.mem_keys.mp member)
    have block := grounded.block id n found other
    by_cases atRoot : l.parent id = root
    · exact .child found block atRoot
    · exact .step found block (up atRoot)

/-- The record shows that the accepted blocks are one chain and the rejected ones are off it. -/
theorem Recorded.acceptsOneChain {ts : Topological F} (recorded : Recorded l genesis ts) :
    AcceptsOneChain genesis ts := by
  constructor
  case child =>
    intro front blk back shape
    have chain := recorded.chain
    rw [shape, ids_append, isChain_cons_append] at chain
    have childOf := (List.isChain_cons_cons.mp chain.2).1
    have named := recorded.named blk (by rw [shape]; simp)
    exact (congrArg Block.parent named).trans childOf.1
  case last => exact recorded.last.symm
  case once => exact recorded.nodup
  case blocks =>
    intro id
    rw [← recorded.processing]
    by_cases atRoot : id = ts.lastAcceptedID
    · exact iff_of_true (atRoot ▸ recorded.grounded.root_mem) (Or.inl atRoot)
    · simp [atRoot]
  case descends =>
    intro id undecided
    obtain ⟨stored, other⟩ := (recorded.processing id).mpr undecided
    exact recorded.grounded.descends id (Finmap.mem_keys.mpr stored) other

/-- In every run `Topological` accepts one chain. -/
theorem always_acceptsOneChain (l : Lineage) {params : Parameters} {genesis : ID}
    {ts : Topological F}
    (started : Topological.initializeAt params genesis (l.height genesis) = .ok ts)
    {calls : List Call} (admissible : ∀ action ∈ calls, action.Admissible l params.k) :
    Always call (fun state => ∃ after, state = some after ∧ AcceptsOneChain genesis after)
      (some ts) calls := by
  refine Always.imp call ?_ (always_sound started admissible)
  rintro _ ⟨after, path, rfl, recorded, _⟩
  exact ⟨after, rfl, recorded.acceptsOneChain⟩

/-- Blocks above a genesis block with the empty ID. -/
def siblings : Lineage := ⟨fun _ => emptyID, fun id => if id = emptyID then 0 else 1⟩

/-- Parameters with which every poll decides. -/
def decisive : Parameters := ⟨1, 1, 1, 1, 1, 1, 1, 1⟩

/-- Two children of the genesis block, and a vote for the second one. -/
def siblingCalls : List Call :=
  [.add (siblings.block (Vector.replicate 32 1)), .add (siblings.block (Vector.replicate 32 2)),
    .recordPoll ⟨byValue 32, byValue 32, byValue 32⟩ {Vector.replicate 32 2}]

/-- The state in which the calls are made. -/
def decisiveStart : Topological snowballFactory where
  params := decisive
  lastAcceptedID := emptyID
  lastAcceptedHeight := 0
  blocks := (∅ : GoMap ID (SnowmanBlock snowballFactory)).insert emptyID ⟨none, false, none, ∅⟩
  preferredIDs := ∅
  preferredHeights := ∅
  preference := emptyID
  issued := []
  accepted := []
  rejected := []

/-- The calls are admissible. -/
theorem siblingCalls_admissible :
    ∀ action ∈ siblingCalls, action.Admissible siblings decisive.k := by
  intro action member
  simp only [siblingCalls, List.mem_cons, List.not_mem_nil, or_false] at member
  rcases member with rfl | rfl | rfl
  · exact ⟨rfl, by decide⟩
  · exact ⟨rfl, by decide⟩
  · exact (by decide : (1 : ℤ) ≤ 1)

/-- The second child is accepted and the first one is rejected. -/
theorem acceptsOneChain_siblings :
    (run call (some decisiveStart) siblingCalls).map
        (fun ts => (ids ts.accepted, ids ts.rejected)) =
        some ([Vector.replicate 32 2], [Vector.replicate 32 1]) ∧
      Always call (fun state => ∃ after, state = some after ∧ AcceptsOneChain emptyID after)
        (some decisiveStart) siblingCalls :=
  ⟨by decide +kernel, always_acceptsOneChain siblings rfl siblingCalls_admissible⟩

/-- The height of a block in the map. -/
def heightAt (blocks : GoMap ID (SnowmanBlock F)) (id : ID) : Option ℕ :=
  (blocks.lookup id).bind (fun n => n.blk.map Block.height)

/-- The preferred branch computed anew: from the last accepted block each block is the preferred
child of the one before it, until a block without children. -/
def Recomputed (ts : Topological F) (path : List ID) : Prop :=
  Walks (choice ts.blocks) ts.lastAcceptedID path ∧
    ∃ n, ts.blocks.lookup (path.getLastD ts.lastAcceptedID) = some n ∧ n.children = ∅

/-- What is kept of the preferred branch is what is computed anew. -/
structure KeepsPreference (ts : Topological F) (path : List ID) : Prop where
  recomputed : Recomputed ts path
  preference : ts.preference = path.getLastD ts.lastAcceptedID
  preferredIDs : ∀ id, id ∈ ts.preferredIDs ↔ id ∈ path
  preferredHeights : ∀ height id, ts.preferredHeights.lookup height = some id ↔
    id ∈ path ∧ heightAt ts.blocks id = some height

/-- The stored preference is the one recomputed from the blocks. -/
theorem Prefers.keepsPreference {ts : Topological F} {path : List ID}
    (prefers : Prefers l ts path) (recorded : Recorded l genesis ts) :
    KeepsPreference ts path := by
  have grounded := recorded.grounded
  have walks := prefers.follows.1
  constructor
  case recomputed =>
    refine ⟨walks, ?_⟩
    have stored := grounded.mem_of_walks_root walks List.getLastD_mem_cons
    obtain ⟨n, found⟩ := Finmap.mem_iff.mp stored
    refine ⟨n, found, grounded.childless _ n found ?_⟩
    have stops := prefers.follows.2
    unfold choice at stops
    rw [found, Option.bind_some, Option.map_eq_none_iff] at stops
    exact stops
  case preference => exact prefers.preference
  case preferredIDs => exact prefers.caches.ids
  case preferredHeights =>
    intro height id
    rw [prefers.caches.heights]
    refine and_congr_right (fun listed => ?_)
    obtain ⟨stored, other⟩ := grounded.mem_of_walks walks listed
    obtain ⟨n, found⟩ := Finmap.mem_iff.mp stored
    unfold heightAt
    rw [found, Option.bind_some, grounded.block id n found other, Option.map_some,
      Option.some.injEq]
    exact Iff.rfl

/-- In every run `Topological` keeps the preferred branch. -/
theorem always_keepsPreference (l : Lineage) {params : Parameters} {genesis : ID}
    {ts : Topological F}
    (started : Topological.initializeAt params genesis (l.height genesis) = .ok ts)
    {calls : List Call} (admissible : ∀ action ∈ calls, action.Admissible l params.k) :
    Always call (fun state => ∃ after path, state = some after ∧ KeepsPreference after path)
      (some ts) calls := by
  refine Always.imp call ?_ (always_sound started admissible)
  rintro _ ⟨after, path, rfl, recorded, prefers, _⟩
  exact ⟨after, path, rfl, prefers.keepsPreference recorded⟩

/-- The early return is not taken: the preference was the first child, and is the accepted one. -/
theorem keepsPreference_siblings :
    (run call (some decisiveStart) siblingCalls).map Topological.preference =
        some (Vector.replicate 32 2) ∧
      Always call (fun state => ∃ after path, state = some after ∧ KeepsPreference after path)
        (some decisiveStart) siblingCalls :=
  ⟨by decide +kernel, always_keepsPreference siblings rfl siblingCalls_admissible⟩

end AvalancheParallel.Snowman
