import AvalancheParallel.Foundation.LinkedMap
import AvalancheParallel.Foundation.Runs
import AvalancheParallel.Poll.EarlyTermination

/-!
# The set of outstanding polls

`set` of `default/snow/consensus/snowman/poll/set.go` keeps the outstanding polls under
their request IDs in the order in which they were added. When a response finishes a poll,
the polls are visited from the oldest on, and the results of those that are finished are
returned up to the first one that is not. A poll that finishes early waits for the
older ones.

A poll is any implementation of the `Poll` interface. What its `Finished` answers may
depend on a choice of the environment, such as the order in which a map is visited, and the
call may change the poll. The metrics, the log and the starting times are left out.

Each poll has a number, which tells polls apart that have the same request ID one after
the other: the number of earlier polls. The results are listed with these numbers.
-/

namespace AvalancheParallel.Poll

open AvalancheParallel.Ids AvalancheParallel.Runs

/-- `Factory` and `Poll`. -/
structure PollImplementation (P Choice Result : Type) where
  new : Choice → Multiset NodeID → P
  vote : NodeID → ID → P → P
  drop : NodeID → P → P
  finished : Choice → P → P × Bool
  result : P → Result

/-- A poll with its number. -/
structure PollHolder (P : Type) where
  number : ℕ
  poll : P

/-- The holder after a method of its poll. -/
def PollHolder.withPoll {P : Type} (p : P) (holder : PollHolder P) : PollHolder P :=
  { holder with poll := p }

/-- `set`, with the polls as the factory made them, in the order of the successful calls of
`Add`. -/
structure PollSet (P : Type) where
  polls : LinkedMap UInt32 (PollHolder P)
  created : List P

variable {P Choice Result : Type} (I : PollImplementation P Choice Result)

namespace PollSet

/-- `NewSet`. -/
def newSet : PollSet P := ⟨LinkedMap.empty, []⟩

/-- The numbers of the outstanding polls, from the oldest to the newest. -/
def numbers (s : PollSet P) : List ℕ := s.polls.entries.map (fun entry => entry.2.number)

/-- `Add`. -/
def add (choice : Choice) (requestID : UInt32) (vdrs : Multiset NodeID) (s : PollSet P) :
    PollSet P × Bool :=
  match s.polls.get requestID with
  | some _ => (s, false)
  | none =>
    let made := I.new choice vdrs
    (⟨s.polls.put requestID ⟨s.created.length, made⟩, s.created ++ [made]⟩, true)

/-- The loop of `processFinishedPolls` over the entries from position `i` on. -/
def processLoop (choices : ℕ → Choice) : ℕ → List (UInt32 × PollHolder P) →
    LinkedMap UInt32 (PollHolder P) → LinkedMap UInt32 (PollHolder P) × List (ℕ × Result)
  | _, [], polls => (polls, [])
  | i, (key, holder) :: rest, polls =>
    let answer := I.finished (choices i) holder.poll
    let polls := polls.modify key (PollHolder.withPoll answer.1)
    if !answer.2 then (polls, [])
    else
      let later := processLoop choices (i + 1) rest (polls.delete key)
      (later.1, (holder.number, I.result answer.1) :: later.2)

/-- `processFinishedPolls`. -/
def processFinishedPolls (choices : ℕ → Choice) (s : PollSet P) : PollSet P × List (ℕ × Result) :=
  let processed := processLoop I choices 0 s.polls.entries s.polls
  (⟨processed.1, s.created⟩, processed.2)

/-- `Vote` and `Drop`: a response is given to the poll of the request. -/
def respond (response : P → P) (choice : Choice) (choices : ℕ → Choice) (requestID : UInt32)
    (s : PollSet P) : PollSet P × List (ℕ × Result) :=
  match s.polls.get requestID with
  | none => (s, [])
  | some holder =>
    let answer := I.finished choice (response holder.poll)
    let s := ⟨s.polls.modify requestID (PollHolder.withPoll answer.1), s.created⟩
    if !answer.2 then (s, []) else processFinishedPolls I choices s

/-- `Vote`. -/
def vote (choice : Choice) (choices : ℕ → Choice) (requestID : UInt32) (vdr : NodeID) (voted : ID)
    (s : PollSet P) : PollSet P × List (ℕ × Result) :=
  respond I (I.vote vdr voted) choice choices requestID s

/-- `Drop`. -/
def drop (choice : Choice) (choices : ℕ → Choice) (requestID : UInt32) (vdr : NodeID)
    (s : PollSet P) : PollSet P × List (ℕ × Result) :=
  respond I (I.drop vdr) choice choices requestID s

end PollSet

/-- The calls of a set, with the choices of the polls that they ask. -/
inductive PollSetCall (Choice : Type) where
  | add (choice : Choice) (requestID : UInt32) (vdrs : Multiset NodeID)
  | vote (choice : Choice) (choices : ℕ → Choice) (requestID : UInt32) (vdr : NodeID) (voted : ID)
  | drop (choice : Choice) (choices : ℕ → Choice) (requestID : UInt32) (vdr : NodeID)

/-- A set, and the results that all calls so far have returned. -/
structure PollHistory (P Result : Type) where
  set : PollSet P
  returned : List (ℕ × Result)

/-- The history before the first call. -/
def PollHistory.start : PollHistory P Result := ⟨PollSet.newSet, []⟩

namespace PollSetCall

/-- The set after the call, and the results it returns. -/
def perform (s : PollSet P) : PollSetCall Choice → PollSet P × List (ℕ × Result)
  | add choice requestID vdrs => ((s.add I choice requestID vdrs).1, [])
  | vote choice choices requestID vdr voted => s.vote I choice choices requestID vdr voted
  | drop choice choices requestID vdr => s.drop I choice choices requestID vdr

def step (history : PollHistory P Result) (call : PollSetCall Choice) : PollHistory P Result :=
  let performed := call.perform I history.set
  ⟨performed.1, history.returned ++ performed.2⟩

/-- The call gives a response to an outstanding poll, which then is finished. -/
def Finishes (s : PollSet P) : PollSetCall Choice → Prop
  | add _ _ _ => False
  | vote choice _ requestID vdr voted => ∃ holder, s.polls.get requestID = some holder ∧
      (I.finished choice (I.vote vdr voted holder.poll)).2 = true
  | drop choice _ requestID vdr => ∃ holder, s.polls.get requestID = some holder ∧
      (I.finished choice (I.drop vdr holder.poll)).2 = true

end PollSetCall

/-- The second state of a poll is reached from the first by calls of its methods. -/
inductive PollImplementation.Evolves : P → P → Prop
  | refl (p : P) : Evolves p p
  | vote {first p : P} (vdr : NodeID) (voted : ID) : Evolves first p →
      Evolves first (I.vote vdr voted p)
  | drop {first p : P} (vdr : NodeID) : Evolves first p → Evolves first (I.drop vdr p)
  | finished {first p : P} (choice : Choice) : Evolves first p →
      Evolves first (I.finished choice p).1

/-- The last call on the poll was one of `Finished`, with this answer. -/
def PollImplementation.LastAnswered (answer : Bool) (p : P) : Prop :=
  ∃ choice before, I.finished choice before = (p, answer)

/-- What a poll becomes in two stretches it becomes in one. -/
theorem PollImplementation.Evolves.trans {I : PollImplementation P Choice Result}
    {first second third : P} (before : I.Evolves first second) (after : I.Evolves second third) :
    I.Evolves first third := by
  induction after with
  | refl => exact before
  | vote vdr voted _ inductionHypothesis => exact .vote vdr voted inductionHypothesis
  | drop vdr _ inductionHypothesis => exact .drop vdr inductionHypothesis
  | finished choice _ inductionHypothesis => exact .finished choice inductionHypothesis

/-- Results are taken off the front of the outstanding polls, in order, and the polls change by
their own calls only. -/
structure Taken (before after : List (UInt32 × PollHolder P)) (results : List (ℕ × Result)) :
    Prop where
  order : results.map Prod.fst ++ after.map (fun entry => entry.2.number) =
    before.map (fun entry => entry.2.number)
  outstanding : ∀ entry ∈ after, ∃ earlier ∈ before,
    entry.2.number = earlier.2.number ∧ I.Evolves earlier.2.poll entry.2.poll
  results : ∀ entry ∈ results, ∃ earlier ∈ before, entry.1 = earlier.2.number ∧
    ∃ p, I.Evolves earlier.2.poll p ∧ I.LastAnswered true p ∧ entry.2 = I.result p

namespace Taken

variable {I} {entries before between after rest : List (UInt32 × PollHolder P)}
  {results : List (ℕ × Result)} {key : UInt32} {holder : PollHolder P} {p : P}

/-- Nothing was taken yet. -/
theorem refl : Taken I entries entries [] where
  order := rfl
  outstanding entry member := ⟨entry, member, rfl, .refl _⟩
  results _ impossible := nomatch impossible

/-- The oldest poll changes and stays. -/
theorem changed (evolves : I.Evolves holder.poll p) :
    Taken I ((key, holder) :: rest) ((key, holder.withPoll p) :: rest) [] where
  order := rfl
  outstanding entry member := by
    rcases List.mem_cons.mp member with rfl | later
    · exact ⟨(key, holder), List.mem_cons_self, rfl, evolves⟩
    · exact ⟨entry, List.mem_cons_of_mem _ later, rfl, .refl _⟩
  results _ impossible := nomatch impossible

/-- The oldest poll is taken before others. -/
theorem cons (evolves : I.Evolves holder.poll p) (finished : I.LastAnswered true p)
    (taken : Taken I rest after results) :
    Taken I ((key, holder) :: rest) after ((holder.number, I.result p) :: results) where
  order := by rw [List.map_cons, List.map_cons, List.cons_append, taken.order]
  outstanding entry member := by
    obtain ⟨earlier, inside, facts⟩ := taken.outstanding entry member
    exact ⟨earlier, List.mem_cons_of_mem _ inside, facts⟩
  results entry member := by
    rcases List.mem_cons.mp member with rfl | later
    · exact ⟨(key, holder), List.mem_cons_self, rfl, p, evolves, finished, rfl⟩
    · obtain ⟨earlier, inside, facts⟩ := taken.results entry later
      exact ⟨earlier, List.mem_cons_of_mem _ inside, facts⟩

/-- Polls change before results are taken. -/
theorem trans (first : Taken I before between []) (second : Taken I between after results) :
    Taken I before after results where
  order := second.order.trans first.order
  outstanding entry member := by
    obtain ⟨middle, inside, sameNumber, later⟩ := second.outstanding entry member
    obtain ⟨earlier, original, number, evolved⟩ := first.outstanding middle inside
    exact ⟨earlier, original, sameNumber.trans number, evolved.trans later⟩
  results entry member := by
    obtain ⟨middle, inside, sameNumber, p, later, facts⟩ := second.results entry member
    obtain ⟨earlier, original, number, evolved⟩ := first.outstanding middle inside
    exact ⟨earlier, original, sameNumber.trans number, p, evolved.trans later, facts⟩

end Taken

namespace PollSet

variable {I}

/-- The loop takes the result of a finished poll. -/
theorem processLoop_done {choices : ℕ → Choice} {i : ℕ} {holder : PollHolder P} {p : P}
    (answered : I.finished (choices i) holder.poll = (p, true)) (key : UInt32)
    (rest : List (UInt32 × PollHolder P)) (polls : LinkedMap UInt32 (PollHolder P)) :
    processLoop I choices i ((key, holder) :: rest) polls =
      ((processLoop I choices (i + 1) rest
          ((polls.modify key (PollHolder.withPoll p)).delete key)).1,
        (holder.number, I.result p) :: (processLoop I choices (i + 1) rest
          ((polls.modify key (PollHolder.withPoll p)).delete key)).2) := by
  rw [processLoop, answered]
  rfl

/-- The loop stops at a poll that is not finished. -/
theorem processLoop_stop {choices : ℕ → Choice} {i : ℕ} {holder : PollHolder P} {p : P}
    (answered : I.finished (choices i) holder.poll = (p, false)) (key : UInt32)
    (rest : List (UInt32 × PollHolder P)) (polls : LinkedMap UInt32 (PollHolder P)) :
    processLoop I choices i ((key, holder) :: rest) polls =
      (polls.modify key (PollHolder.withPoll p), []) := by
  rw [processLoop, answered]
  rfl

/-- The loop of `processFinishedPolls` takes results up to a poll that is not finished. -/
theorem processLoop_taken (choices : ℕ → Choice) (i : ℕ)
    (entries : List (UInt32 × PollHolder P)) (polls : LinkedMap UInt32 (PollHolder P))
    (same : polls.entries = entries) :
    Taken I entries (processLoop I choices i entries polls).1.entries
        (processLoop I choices i entries polls).2 ∧
      ∀ oldest, (processLoop I choices i entries polls).1.entries.head? = some oldest →
        I.LastAnswered false oldest.2.poll := by
  induction entries generalizing i polls with
  | nil =>
    constructor
    · change Taken I [] polls.entries []
      rw [same]
      exact .refl
    · intro oldest head
      simp [processLoop, same] at head
  | cons first rest inductionHypothesis =>
    obtain ⟨key, holder⟩ := first
    rcases answered : I.finished (choices i) holder.poll with ⟨p, answer⟩
    have changed := LinkedMap.modify_oldest same (PollHolder.withPoll p)
    have evolves : I.Evolves holder.poll p := by
      have asked : I.Evolves holder.poll _ := .finished (choices i) (.refl holder.poll)
      rw [answered] at asked
      exact asked
    cases answer with
    | true =>
      obtain ⟨taken, stopped⟩ :=
        inductionHypothesis (i + 1) _ (LinkedMap.delete_oldest changed)
      rw [processLoop_done answered]
      exact ⟨taken.cons evolves ⟨_, _, answered⟩, stopped⟩
    | false =>
      rw [processLoop_stop answered, changed]
      refine ⟨.changed evolves, ?_⟩
      intro oldest head
      rw [List.head?_cons, Option.some.injEq] at head
      subst head
      exact ⟨_, _, answered⟩

variable {response : P → P} {choice : Choice} {choices : ℕ → Choice} {requestID : UInt32}
  {s : PollSet P}

/-- Giving a response to a poll changes this poll only. -/
theorem modify_taken (choice : Choice) (responds : ∀ p, I.Evolves p (response p))
    {holder : PollHolder P} (found : s.polls.get requestID = some holder) :
    Taken I s.polls.entries (s.polls.modify requestID
      (PollHolder.withPoll (I.finished choice (response holder.poll)).1)).entries [] where
  order := LinkedMap.map_modify_entries PollHolder.number _ (fun _ => rfl)
  outstanding entry member := by
    rcases LinkedMap.mem_modify_entries member with kept | ⟨before, inside, own, rfl⟩
    · exact ⟨entry, kept, rfl, .refl _⟩
    · obtain rfl := LinkedMap.eq_of_get found inside own
      exact ⟨(requestID, holder), inside, rfl, .finished choice (responds holder.poll)⟩
  results _ impossible := nomatch impossible

/-- `Vote` and `Drop` take finished polls off the front. -/
theorem respond_taken (choice : Choice) (choices : ℕ → Choice) (requestID : UInt32)
    (s : PollSet P) (responds : ∀ p, I.Evolves p (response p)) :
    (respond I response choice choices requestID s).1.created = s.created ∧
      Taken I s.polls.entries (respond I response choice choices requestID s).1.polls.entries
        (respond I response choice choices requestID s).2 := by
  unfold respond
  cases found : s.polls.get requestID with
  | none => exact ⟨rfl, .refl⟩
  | some holder =>
    have changed := modify_taken choice responds found
    dsimp only
    split
    · exact ⟨rfl, changed⟩
    · exact ⟨rfl, changed.trans (processLoop_taken choices 0 _ _ rfl).1⟩

/-- After a response that finishes its poll, the oldest outstanding poll is not finished. -/
theorem respond_oldest {holder : PollHolder P} (found : s.polls.get requestID = some holder)
    (finishes : (I.finished choice (response holder.poll)).2 = true)
    {oldest : UInt32 × PollHolder P}
    (head : (respond I response choice choices requestID s).1.polls.entries.head? = some oldest) :
    I.LastAnswered false oldest.2.poll := by
  simp only [respond, found, finishes] at head
  exact (processLoop_taken choices 0 _ _ rfl).2 oldest head

end PollSet

namespace PollHistory

/-- The polls returned and the outstanding ones, in this order, are all polls in the order in
which they were added. Each comes from the poll that the factory made, by its own calls. -/
structure InOrder (history : PollHistory P Result) : Prop where
  numbers : history.returned.map Prod.fst ++ history.set.numbers =
    List.range history.set.created.length
  outstanding : ∀ entry ∈ history.set.polls.entries, ∃ first,
    history.set.created[entry.2.number]? = some first ∧ I.Evolves first entry.2.poll
  results : ∀ entry ∈ history.returned, ∃ first p,
    history.set.created[entry.1]? = some first ∧ I.Evolves first p ∧ I.LastAnswered true p ∧
      entry.2 = I.result p

/-- The empty set of polls is in order. -/
theorem start_inOrder : InOrder I start where
  numbers := rfl
  outstanding _ impossible := nomatch impossible
  results _ impossible := nomatch impossible

variable {I} {history : PollHistory P Result}

/-- A new poll is the newest one. -/
theorem add_inOrder (inOrder : InOrder I history) (choice : Choice) (requestID : UInt32)
    (vdrs : Multiset NodeID) :
    InOrder I ⟨(history.set.add I choice requestID vdrs).1, history.returned ++ []⟩ := by
  rw [List.append_nil]
  unfold PollSet.add
  cases found : history.set.polls.get requestID with
  | some holder => exact inOrder
  | none =>
    have appended := LinkedMap.put_entries_of_absent found
      (⟨history.set.created.length, I.new choice vdrs⟩ : PollHolder P)
    have kept {n : ℕ} {first : P} (stored : history.set.created[n]? = some first) :
        (history.set.created ++ [I.new choice vdrs])[n]? = some first := by
      rw [List.getElem?_append_left (List.getElem?_eq_some_iff.mp stored).1, stored]
    refine ⟨?_, ?_, ?_⟩
    · simp only [PollSet.numbers, appended, List.map_append, List.map_singleton,
        List.length_append, List.length_singleton, List.range_succ]
      rw [← List.append_assoc]
      congr 1
      exact inOrder.numbers
    · intro entry member
      simp only [appended] at member
      rcases List.mem_append.mp member with earlier | new
      · obtain ⟨first, stored, evolves⟩ := inOrder.outstanding entry earlier
        exact ⟨first, kept stored, evolves⟩
      · rw [List.mem_singleton.mp new]
        exact ⟨I.new choice vdrs, List.getElem?_concat_length, .refl _⟩
    · intro entry member
      obtain ⟨first, p, stored, facts⟩ := inOrder.results entry member
      exact ⟨first, p, kept stored, facts⟩

/-- Results taken off the front of the outstanding polls follow those returned before. -/
theorem taken_inOrder (inOrder : InOrder I history) {s : PollSet P} {results : List (ℕ × Result)}
    (created : s.created = history.set.created)
    (taken : Taken I history.set.polls.entries s.polls.entries results) :
    InOrder I ⟨s, history.returned ++ results⟩ := by
  refine ⟨?_, ?_, ?_⟩
  · have numbers : results.map Prod.fst ++ s.numbers = history.set.numbers := taken.order
    rw [List.map_append, List.append_assoc, numbers, created]
    exact inOrder.numbers
  · intro entry member
    obtain ⟨before, inside, number, after⟩ := taken.outstanding entry member
    obtain ⟨first, stored, evolves⟩ := inOrder.outstanding before inside
    refine ⟨first, ?_, evolves.trans after⟩
    rw [created, number]
    exact stored
  · intro entry member
    simp only [created]
    rcases List.mem_append.mp member with earlier | new
    · exact inOrder.results entry earlier
    · obtain ⟨before, inside, number, p, after, facts⟩ := taken.results entry new
      obtain ⟨first, stored, evolves⟩ := inOrder.outstanding before inside
      exact ⟨first, p, number ▸ stored, evolves.trans after, facts⟩

/-- Every call keeps the order. -/
theorem step_inOrder (history : PollHistory P Result) (call : PollSetCall Choice)
    (inOrder : InOrder I history) : InOrder I (PollSetCall.step I history call) := by
  cases call with
  | add choice requestID vdrs => exact add_inOrder inOrder choice requestID vdrs
  | vote choice choices requestID vdr voted =>
    obtain ⟨created, taken⟩ := PollSet.respond_taken choice choices requestID history.set
      (fun p => .vote (I := I) vdr voted (.refl p))
    exact taken_inOrder inOrder created taken
  | drop choice choices requestID vdr =>
    obtain ⟨created, taken⟩ := PollSet.respond_taken choice choices requestID history.set
      (fun p => .drop (I := I) vdr (.refl p))
    exact taken_inOrder inOrder created taken

/-- After a call that finishes a poll, the oldest outstanding poll is not finished. -/
theorem step_oldest (history : PollHistory P Result) (call : PollSetCall Choice)
    (finishes : call.Finishes I history.set) (oldest : UInt32 × PollHolder P)
    (head : (PollSetCall.step I history call).set.polls.entries.head? = some oldest) :
    I.LastAnswered false oldest.2.poll := by
  cases call with
  | add choice requestID vdrs => exact absurd finishes id
  | vote choice choices requestID vdr voted =>
    obtain ⟨holder, found, answered⟩ := finishes
    exact PollSet.respond_oldest found answered head
  | drop choice choices requestID vdr =>
    obtain ⟨holder, found, answered⟩ := finishes
    exact PollSet.respond_oldest found answered head

end PollHistory

/-- The results returned by all calls together are those of the first polls that were added,
in the order of the calls of `Add`, and the outstanding polls are the ones after them. Each
result is that of the poll when it answered that it is finished. After a call that
finishes a poll, the oldest outstanding poll has answered that it is not. -/
theorem results_in_request_order (calls : List (PollSetCall Choice)) :
    (∃ count remaining,
      (run (PollSetCall.step I) PollHistory.start calls).set.created.length = count + remaining ∧
      (run (PollSetCall.step I) PollHistory.start calls).returned.map Prod.fst =
        List.range count ∧
      (run (PollSetCall.step I) PollHistory.start calls).set.numbers =
        List.range' count remaining) ∧
    (∀ entry ∈ (run (PollSetCall.step I) PollHistory.start calls).returned, ∃ first p,
      (run (PollSetCall.step I) PollHistory.start calls).set.created[entry.1]? = some first ∧
        I.Evolves first p ∧ I.LastAnswered true p ∧ entry.2 = I.result p) ∧
    Along (PollSetCall.step I) (fun history call => call.Finishes I history.set →
      ∀ oldest, (PollSetCall.step I history call).set.polls.entries.head? = some oldest →
        I.LastAnswered false oldest.2.poll) PollHistory.start calls := by
  have inOrder := run_invariant (PollSetCall.step I) (PollHistory.InOrder I)
    PollHistory.step_inOrder PollHistory.start calls (PollHistory.start_inOrder I)
  refine ⟨?_, inOrder.results, ?_⟩
  · have numbers := inOrder.numbers.symm
    rw [List.range_eq_range'] at numbers
    obtain ⟨count, below, returned, outstanding⟩ := List.range'_eq_append_iff.mp numbers
    refine ⟨count, _, (Nat.add_sub_of_le below).symm, ?_, ?_⟩
    · rw [returned, List.range_eq_range']
    · rw [outstanding, Nat.zero_add, Nat.mul_one]
  · rw [along_iff_forall]
    intro front call rest _ finishes
    exact PollHistory.step_oldest _ call finishes

/-- Two polls of one response each: the newer one waits for the older one. -/
example :
    let responses : PollImplementation ℕ Unit ℕ :=
      ⟨fun _ _ => 0, fun _ _ p => p + 1, fun _ p => p + 1, fun _ p => (p, decide (0 < p)), id⟩
    let vdr : NodeID := Vector.replicate 20 0
    let added : List (PollSetCall Unit) := [.add () 7 {vdr}, .add () 8 {vdr}]
    let newerFirst := added ++ [.drop () (fun _ => ()) 8 vdr]
    (run (PollSetCall.step responses) PollHistory.start newerFirst).returned = [] ∧
      (run (PollSetCall.step responses) PollHistory.start
        (newerFirst ++ [.drop () (fun _ => ()) 7 vdr])).returned = [(0, 1), (1, 1)] := by
  decide

end AvalancheParallel.Poll
