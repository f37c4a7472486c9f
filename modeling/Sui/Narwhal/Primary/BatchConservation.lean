import Sui.Narwhal.Primary.Proposer

/-!
# Conservation of batches

The proposer is responsible for the batches of its workers until a header with them is
committed.  Over one lifetime of the process every batch that it received is in exactly
one place: it waits in the queue, it is included in one header that may still be
committed, or it is included in a header of this lifetime that was reported committed.
When a later header is committed first, the batches of the earlier ones are put back in
front of the queue in the order in which they were proposed.
-/

namespace Sui.Narwhal

open Library Proposer Std.ExtTreeMap Map
open List hiding after
open Std (ExtTreeMap)
open ProposerNode (soloProposer)

/-! ## Payloads -/

/-- The keys after an insertion. -/
theorem mem_map_fst_indexInsert [DecidableEq κ] (key lookup : κ) (value : α)
    (entries : List (κ × α)) :
    lookup ∈ (indexInsert key value entries).map Prod.fst ↔
      lookup = key ∨ lookup ∈ entries.map Prod.fst := by
  induction entries with
  | nil => simp [indexInsert]
  | cons entry entries ih =>
    unfold indexInsert
    split
    · next same => simp [same]
    · rw [map_cons, mem_cons, ih, map_cons, mem_cons]
      exact or_left_comm

namespace Proposer

/-- The payload of a header for some batches. -/
def payloadOf (messages : List OurDigestMessage) : List (BatchDigest × WorkerId × Nat) :=
  messages.foldl (fun payload message => indexInsert message.digest
    (message.workerId, message.timestamp) payload) []

/-- The payload holds the digests of the messages. -/
theorem mem_payloadOf_iff (messages : List OurDigestMessage) (digest : BatchDigest) :
    digest ∈ (payloadOf messages).map Prod.fst ↔ digest ∈ messages.map OurDigestMessage.digest := by
  have fromStart : ∀ payload : List (BatchDigest × WorkerId × Nat),
      digest ∈ (messages.foldl (fun payload message => indexInsert message.digest
        (message.workerId, message.timestamp) payload) payload).map Prod.fst ↔
      digest ∈ messages.map OurDigestMessage.digest ∨ digest ∈ payload.map Prod.fst := by
    induction messages with
    | nil => simp
    | cons message messages ih =>
      intro payload
      rw [foldl_cons, ih, mem_map_fst_indexInsert, map_cons, mem_cons]
      tauto
  have fromEmpty := fromStart []
  rwa [map_nil, mem_nil_iff, or_false] at fromEmpty

/-! ## What the operations do to the batches -/

/-- The batches of the headers that may still be committed, oldest header first. -/
def outstanding (proposer : Proposer) : List OurDigestMessage :=
  proposer.proposedHeaders.toList.flatMap fun entry => entry.2.2

/-- A new header takes batches from the front of the queue; a header that is sent again
takes none. -/
theorem createNewHeader_moves
    (created : createNewHeader config table store createdAt proposer = .ok (header, after)) :
    after.round = proposer.round ∧
      (after.digests = proposer.digests ∧ after.proposedHeaders = proposer.proposedHeaders ∨
        ∃ number, after.digests = proposer.digests.drop number ∧
          header.payload = payloadOf (proposer.digests.take number) ∧
          after.proposedHeaders = proposer.proposedHeaders.insert proposer.round
            (header, proposer.digests.take number)) := by
  unfold createNewHeader at created
  dsimp only at created
  split at created
  · split at created
    · cases created
      exact ⟨rfl, .inl ⟨rfl, rfl⟩⟩
    · split at created
      · cases created
      · cases created
        exact ⟨rfl, .inr ⟨_, rfl, rfl, rfl⟩⟩
  · split at created
    · cases created
    · cases created
      exact ⟨rfl, .inr ⟨_, rfl, rfl, rfl⟩⟩

/-- Starting the timers leaves the batches where they are. -/
theorem finishHeader_keeps {proposer after : Proposer}
    (finished : proposer.finishHeader config table now sent = .ok after) :
    after.round = proposer.round ∧ after.digests = proposer.digests ∧
      after.proposedHeaders = proposer.proposedHeaders := by
  unfold finishHeader at finished
  dsimp only at finished
  split at finished
  · cases finished
  · cases finished
  · cases finished
    cases sent with
    | none => exact ⟨rfl, rfl, rfl⟩
    | some header => exact ⟨rfl, rfl, rfl⟩

/-- The headers whose batches are put back: those up to the last committed round that are
not committed themselves. -/
def resent (proposer : Proposer) (commitHeaders : List Nat) :
    List (Nat × Header × List OurDigestMessage) :=
  (commitHeaders.foldl ExtTreeMap.erase proposer.proposedHeaders).toList.takeWhile
    fun entry => entry.1 ≤ commitHeaders.foldl max 0

section

variable (proposer : Proposer)

include proposer

/-- What is sent again: uncommitted headers up to the last round. -/
theorem mem_resent_iff (commitHeaders : List Nat)
    (entry : Nat × Header × List OurDigestMessage) :
    entry ∈ proposer.resent commitHeaders ↔
      proposer.proposedHeaders[entry.1]? = some entry.2 ∧ entry.1 ∉ commitHeaders ∧
        entry.1 ≤ commitHeaders.foldl max 0 := by
  obtain ⟨round, proposed⟩ := entry
  unfold resent
  rw [takeWhile_eq_filter_of_pairwise]
  · rw [mem_filter, mem_toList_iff_getElem?_eq_some, getElem?_foldl_erase, decide_eq_true_eq]
    by_cases isCommitted : round ∈ commitHeaders
    · simp [isCommitted]
    · simp [isCommitted]
  · apply ordered_keys_toList.imp
    intro earlier later below isLater
    have order := Nat.compare_eq_lt.mp below
    simp only [decide_eq_true_eq] at isLater ⊢
    omega

theorem resent_ordered (commitHeaders : List Nat) :
    (proposer.resent commitHeaders).Pairwise fun earlier later => earlier.1 < later.1 := by
  apply List.Pairwise.sublist (takeWhile_sublist _)
  exact ordered_keys_toList.imp Nat.compare_eq_lt.mp

/-- The headers above the last committed round stay. -/
theorem getElem?_receiveCommitted (commitHeaders : List Nat) (round : Nat) :
    (proposer.receiveCommitted commitHeaders).proposedHeaders[round]? =
      if commitHeaders.foldl max 0 < round then proposer.proposedHeaders[round]? else none := by
  obtain ⟨_, below⟩ := foldl_max_le_iff.mp (le_refl (commitHeaders.foldl max 0))
  have isResent : round ∈ (proposer.resent commitHeaders).map Prod.fst ↔
      (proposer.proposedHeaders[round]?).isSome ∧ round ∉ commitHeaders ∧
        round ≤ commitHeaders.foldl max 0 := by
    simp only [mem_map, mem_resent_iff, Option.isSome_iff_exists]
    constructor
    · rintro ⟨⟨_, proposed⟩, ⟨found, conditions⟩, rfl⟩
      exact ⟨⟨proposed, found⟩, conditions⟩
    · rintro ⟨⟨proposed, found⟩, conditions⟩
      exact ⟨(round, proposed), ⟨found, conditions⟩, rfl⟩
  change (((proposer.resent commitHeaders).map Prod.fst).foldl erase
    (commitHeaders.foldl erase proposer.proposedHeaders))[round]? = _
  rw [getElem?_foldl_erase, getElem?_foldl_erase]
  simp only [isResent]
  by_cases isCommitted : round ∈ commitHeaders
  · have notAbove := below round isCommitted
    simp [isCommitted, Nat.not_lt.mpr notAbove]
  · by_cases above : commitHeaders.foldl max 0 < round
    · simp [isCommitted, above, Nat.not_le.mpr above]
    · cases found : proposer.proposedHeaders[round]? with
      | none => simp
      | some proposed => simp [isCommitted, above, Nat.not_lt.mp above]

/-- The batches of outstanding headers are committed, put back in the queue, or stay
outstanding. -/
theorem outstanding_receiveCommitted (distinct : commitHeaders.Nodup) :
    proposer.outstanding.Perm
      ((commitHeaders.filterMap fun round => proposer.proposedHeaders[round]?).flatMap Prod.snd ++
        ((proposer.resent commitHeaders).flatMap (fun entry => entry.2.2) ++
          (proposer.receiveCommitted commitHeaders).outstanding)) := by
  have removed := toList_perm_foldl_erase proposer.proposedHeaders distinct
  have resentDistinct : ((proposer.resent commitHeaders).map Prod.fst).Nodup := by
    rw [nodup_iff_pairwise_ne, pairwise_map]
    exact (proposer.resent_ordered commitHeaders).imp Nat.ne_of_lt
  have putBack := toList_perm_foldl_erase
    (commitHeaders.foldl erase proposer.proposedHeaders) resentDistinct
  have entries : (((proposer.resent commitHeaders).map Prod.fst).filterMap fun round =>
      (commitHeaders.foldl erase proposer.proposedHeaders)[round]?.map
        (Prod.mk round)) = proposer.resent commitHeaders := by
    rw [filterMap_map]
    conv_rhs => rw [← filterMap_some (l := proposer.resent commitHeaders)]
    apply filterMap_congr
    rintro ⟨round, proposed⟩ listed
    have found := mem_toList_iff_getElem?_eq_some.mp (takeWhile_subset _ listed)
    rw [Function.comp_apply, found, Option.map_some]
  rw [entries] at putBack
  have moved := (removed.trans (putBack.append_left _)).flatMap_right fun entry => entry.2.2
  rw [flatMap_append, flatMap_append] at moved
  have committed : ((commitHeaders.filterMap fun round =>
      proposer.proposedHeaders[round]?.map (Prod.mk round)).flatMap fun entry => entry.2.2) =
      (commitHeaders.filterMap fun round => proposer.proposedHeaders[round]?).flatMap
        Prod.snd := by
    rw [flatMap_def, flatMap_def, map_filterMap, map_filterMap]
    simp only [Option.map_map]
    rfl
  rwa [committed] at moved

end

end Proposer

/-! ## One lifetime of the proposer -/

/-- A lifetime of the proposer, with what happened in it. -/
structure Lifetime where
  node : ProposerNode
  received : List OurDigestMessage
  /-- The headers that were made, with their batches, by their rounds. -/
  made : ExtTreeMap Nat (Header × List OurDigestMessage)
  reported : List (Header × List OurDigestMessage)
  lastReported : Nat

namespace Lifetime

/-- The proposer is started, with any header persisted by an earlier lifetime. -/
def start (config : ProposerConfig) (store : ProposerStore) (now : Nat) : Lifetime where
  node := ⟨store, some (Proposer.spawn config now, none), []⟩
  received := []
  made := ∅
  reported := []
  lastReported := 0

/-- A header was made if the proposer has one for its round. -/
def recordMade (made : ExtTreeMap Nat (Header × List OurDigestMessage)) :
    Option (Proposer × Option Header) → ExtTreeMap Nat (Header × List OurDigestMessage)
  | some (proposer, _) =>
    match proposer.proposedHeaders[proposer.round]? with
    | some proposed => made.insert proposer.round proposed
    | none => made
  | none => made

/-- Record what an action did.  A header that an earlier lifetime persisted and that is sent
again was not made in this one, so that it does not count when it is reported committed. -/
def record (lifetime : Lifetime) (node : ProposerNode) : ProposerNode.Action → Lifetime
  | .propose _ _ _ => { lifetime with
      node := node
      made := recordMade lifetime.made node.live }
  | .wake _ _ _ (.digest message) => { lifetime with
      node := node
      received := lifetime.received ++ [message] }
  | .wake _ _ _ (.committed rounds) => { lifetime with
      node := node
      reported := lifetime.reported ++ rounds.filterMap fun round => lifetime.made[round]?
      lastReported := rounds.foldl max lifetime.lastReported }
  | _ => { lifetime with node := node }

@[simp] theorem node_record (lifetime : Lifetime) (node : ProposerNode)
    (action : ProposerNode.Action) :
    (lifetime.record node action).node = node := by
  unfold record
  split <;> rfl

/-- Perform an action of the authority, and record what happened. -/
def perform (config : ProposerConfig) (lifetime : Lifetime)
    (action : ProposerNode.Action) : Option Lifetime :=
  (lifetime.node.perform config action).map fun node => lifetime.record node action

/-- Within a lifetime the process is neither started nor stopped, and the rounds of
committed headers are reported in increasing order. -/
def Allowed (lifetime : Lifetime) : ProposerNode.Action → Prop
  | .spawn _ => False
  | .crash => False
  | .wake _ _ _ (.committed rounds) =>
    rounds.Pairwise (· < ·) ∧ ∀ round ∈ rounds, lifetime.lastReported < round
  | _ => True

/-- Where a batch can be. -/
inductive Place where
  | queue
  | proposed (round : Nat)
  /-- It is in the payload of a header of a round that was reported committed. -/
  | committed (round : Nat)
  deriving DecidableEq

/-- All places in which a digest is. -/
def places (lifetime : Lifetime) (proposer : Proposer) (digest : BatchDigest) : List Place :=
  ((proposer.digests.filter fun message => message.digest = digest).map fun _ => .queue) ++
    ((proposer.proposedHeaders.toList.filter fun entry =>
      digest ∈ entry.2.1.payload.map Prod.fst).map fun entry => .proposed entry.1) ++
    ((lifetime.reported.filter fun entry =>
      digest ∈ entry.1.payload.map Prod.fst).map fun entry => .committed entry.1.round)

/-- The accounts of a lifetime and its running proposer. -/
structure Accounts (lifetime : Lifetime) (proposer : Proposer) : Prop where
  conserved : lifetime.received.Perm
    (proposer.digests ++ (proposer.outstanding ++ lifetime.reported.flatMap Prod.snd))
  past : ∀ (round : Nat) proposed, lifetime.made[round]? = some proposed → round ≤ proposer.round
  isMade : ∀ (round : Nat) proposed, proposer.proposedHeaders[round]? = some proposed →
    lifetime.made[round]? = some proposed
  isOutstanding : ∀ (round : Nat) proposed, lifetime.made[round]? = some proposed →
    lifetime.lastReported < round → proposer.proposedHeaders[round]? = some proposed
  payload : ∀ (round : Nat) header messages, lifetime.made[round]? = some (header, messages) →
    header.payload = Proposer.payloadOf messages
  payloadReported : ∀ header messages, (header, messages) ∈ lifetime.reported →
    header.payload = Proposer.payloadOf messages

/-- The accounts balance as long as the proposer runs. -/
def Balanced (lifetime : Lifetime) : Prop :=
  ∀ proposer pending, lifetime.node.live = some (proposer, pending) → lifetime.Accounts proposer

namespace Accounts

variable {lifetime : Lifetime} {proposer after : Proposer}

variable (accounts : lifetime.Accounts proposer)

include accounts

/-- The proposer may change as long as the batches stay where they are. -/
theorem keep (node : ProposerNode)
    (round : proposer.round ≤ after.round) (digests : after.digests = proposer.digests)
    (proposedHeaders : after.proposedHeaders = proposer.proposedHeaders) :
    ({ lifetime with node := node } : Lifetime).Accounts after where
  conserved := by
    unfold outstanding
    rw [digests, proposedHeaders]
    exact accounts.conserved
  past round' proposed isMade := (accounts.past round' proposed isMade).trans round
  isMade := by
    rw [proposedHeaders]
    exact accounts.isMade
  isOutstanding := by
    rw [proposedHeaders]
    exact accounts.isOutstanding
  payload := accounts.payload
  payloadReported := accounts.payloadReported

/-- A batch that arrives is queued. -/
theorem digest (node : ProposerNode) (message : OurDigestMessage) :
    ({ lifetime with node := node, received := lifetime.received ++ [message] } :
      Lifetime).Accounts (proposer.receiveDigest message) := by
  refine { accounts with conserved := ?_ }
  change (lifetime.received ++ [message]).Perm (proposer.digests ++ [message] ++ _)
  rw [append_assoc]
  exact (accounts.conserved.append_right _).trans (by
    rw [append_assoc]
    exact perm_append_comm.append_left _)

/-- Own headers are reported committed. -/
theorem committed (node : ProposerNode) (increasing : rounds.Pairwise (· < ·))
    (later : ∀ round ∈ rounds, lifetime.lastReported < round) :
    ({ lifetime with
      node := node
      reported := lifetime.reported ++ rounds.filterMap fun round => lifetime.made[round]?
      lastReported := rounds.foldl max lifetime.lastReported } :
        Lifetime).Accounts (proposer.receiveCommitted rounds) := by
  -- A reported round is above the last one, so that its header is outstanding.
  have found : (rounds.filterMap fun round => lifetime.made[round]?) =
      rounds.filterMap fun round => proposer.proposedHeaders[round]? := by
    apply filterMap_congr
    intro round listed
    ext proposed
    exact ⟨fun isMade => accounts.isOutstanding round proposed isMade (later round listed),
      accounts.isMade round proposed⟩
  have moved := proposer.outstanding_receiveCommitted (increasing.imp Nat.ne_of_lt)
  refine ⟨?_, accounts.past, ?_, ?_, accounts.payload, ?_⟩
  · refine accounts.conserved.trans ?_
    change List.Perm _ ((proposer.resent rounds).flatMap (fun entry => entry.2.2) ++
      proposer.digests ++ (_ ++ List.flatMap Prod.snd (_ ++ _)))
    rw [found, flatMap_append]
    rw [perm_iff_count] at moved ⊢
    intro message
    have counted := moved message
    simp only [count_append] at counted ⊢
    omega
  · intro round proposed isOutstanding
    rw [getElem?_receiveCommitted] at isOutstanding
    split at isOutstanding
    · exact accounts.isMade round proposed isOutstanding
    · cases isOutstanding
  · intro round proposed isMade above
    obtain ⟨aboveLast, aboveRounds⟩ :=
      foldl_max_le_iff.mp (le_refl (rounds.foldl max lifetime.lastReported))
    have aboveAll : rounds.foldl max 0 ≤ rounds.foldl max lifetime.lastReported :=
      foldl_max_le_iff.mpr ⟨Nat.zero_le _, aboveRounds⟩
    rw [getElem?_receiveCommitted, if_pos (aboveAll.trans_lt above)]
    exact accounts.isOutstanding round proposed isMade (aboveLast.trans_lt above)
  · intro header messages listed
    rcases mem_append.mp listed with earlier | now
    · exact accounts.payloadReported header messages earlier
    · obtain ⟨round, _, isMade⟩ := mem_filterMap.mp now
      exact accounts.payload round header messages isMade

/-- There is no header of the next round yet. -/
theorem fresh : proposer.proposedHeaders[proposer.round + 1]? = none := by
  rw [Option.eq_none_iff_forall_ne_some]
  intro proposed found
  have notAbove := accounts.past _ _ (accounts.isMade _ _ found)
  omega

/-- A new header takes its batches from the queue.  It is the first one of its round. -/
theorem insert (node : ProposerNode) (number : Nat) (round : after.round = proposer.round + 1)
    (digests : after.digests = proposer.digests.drop number)
    (payload : header.payload = payloadOf (proposer.digests.take number))
    (proposedHeaders : after.proposedHeaders = proposer.proposedHeaders.insert
      (proposer.round + 1) (header, proposer.digests.take number)) :
    ({ lifetime with
      node := node
      made := lifetime.made.insert (proposer.round + 1)
        (header, proposer.digests.take number) } : Lifetime).Accounts after := by
  refine ⟨?_, ?_, ?_, ?_, ?_, accounts.payloadReported⟩
  · have added : after.proposedHeaders[proposer.round + 1]? =
        some (header, proposer.digests.take number) := by
      rw [proposedHeaders, Map.getElem?_insert, if_pos rfl]
    have listed := Map.toList_perm_cons_erase added
    nth_rewrite 2 [proposedHeaders] at listed
    rw [Map.erase_insert, Map.erase_of_absent accounts.fresh] at listed
    have moved : after.outstanding.Perm (proposer.digests.take number ++ proposer.outstanding) := by
      have listedBatches := listed.flatMap_right fun entry => entry.2.2
      rwa [flatMap_cons] at listedBatches
    refine accounts.conserved.trans ?_
    conv_lhs => rw [← take_append_drop number proposer.digests]
    rw [digests]
    rw [perm_iff_count] at moved ⊢
    intro message
    have counted := moved message
    simp only [count_append] at counted ⊢
    omega
  · refine Map.forall_insert round.ge fun round' proposed earlier => ?_
    have notAbove := accounts.past round' proposed earlier
    omega
  · intro round' proposed isOutstanding
    rw [proposedHeaders, Map.getElem?_insert] at isOutstanding
    rw [Map.getElem?_insert]
    split_ifs at isOutstanding ⊢
    · exact isOutstanding
    · exact accounts.isMade round' proposed isOutstanding
  · intro round' proposed isMade above
    rw [Map.getElem?_insert] at isMade
    rw [proposedHeaders, Map.getElem?_insert]
    split_ifs at isMade ⊢
    · exact isMade
    · exact accounts.isOutstanding round' proposed isMade above
  · intro round' header' messages isMade
    rcases Map.cases_of_getElem?_insert isMade with ⟨_, ⟨⟩⟩ | ⟨_, earlier⟩
    · exact payload
    · exact accounts.payload round' header' messages earlier

/-- The header of the next round is made. -/
theorem propose (node : ProposerNode)
    (made : proposer.makeHeader config table store createdAt = .ok (header, after))
    (pending : Option Header) :
    ({ lifetime with
      node := node
      made := recordMade lifetime.made (some (after, pending)) } : Lifetime).Accounts after := by
  obtain ⟨round, moved⟩ := createNewHeader_moves made
  change after.round = proposer.round + 1 at round
  unfold recordMade
  dsimp only
  rcases moved with ⟨digests, proposedHeaders⟩ | ⟨number, digests, payload, proposedHeaders⟩
  · rw [proposedHeaders, round, accounts.fresh]
    exact accounts.keep node (by omega) digests proposedHeaders
  · have added : after.proposedHeaders[after.round]? =
        some (header, proposer.digests.take number) := by
      rw [proposedHeaders, round, Map.getElem?_insert, if_pos rfl]
    rw [added, round]
    exact accounts.insert node number round digests payload proposedHeaders

/-- A batch arrives, headers are reported committed, or the batches stay where they are. -/
theorem wake (node : ProposerNode) (allowed : lifetime.Allowed (.wake table now later event))
    (handled : proposer.handle config table later event = .ok (sent, after)) :
    (lifetime.record node (.wake table now later event)).Accounts after := by
  cases event with
  | repeatHeader delivered =>
    dsimp only [handle] at handled
    split at handled
    · cases handled
      exact accounts.keep node le_rfl rfl rfl
    · cases handled
      exact accounts.keep node le_rfl rfl rfl
  | committed rounds =>
    cases handled
    exact accounts.committed node allowed.1 allowed.2
  | parents parents round epoch =>
    obtain ⟨after', received, same⟩ := map_eq_ok.mp handled
    cases same
    obtain ⟨higher, _, digests, proposedHeaders⟩ := receiveParents_spec received
    exact accounts.keep node higher digests proposedHeaders
  | digest message =>
    cases handled
    exact accounts.digest node message
  | timer =>
    cases handled
    exact accounts.keep node le_rfl rfl rfl

end Accounts

/-- Every action of a lifetime keeps the accounts. -/
theorem Balanced.perform {lifetime next : Lifetime} {action : ProposerNode.Action}
    (balanced : lifetime.Balanced) (allowed : lifetime.Allowed action)
    (performed : lifetime.perform config action = some next) :
    next.Balanced := by
  obtain ⟨node, isNode, rfl⟩ := Option.map_eq_some_iff.mp performed
  intro proposer pending isLive
  rw [node_record] at isLive
  cases action with
  | spawn now => exact allowed.elim
  | crash => exact allowed.elim
  | propose table now createdAt =>
    dsimp only [ProposerNode.perform] at isNode
    split at isNode
    · next before wasLive =>
      split at isNode
      · split at isNode
        · cases isNode
          cases isLive
        · next header after made =>
          cases isNode
          cases isLive
          exact (balanced before none wasLive).propose _ made _
      · cases isNode
    · cases isNode
  | finish table now delivered =>
    dsimp only [ProposerNode.perform] at isNode
    split at isNode
    · next before header wasLive =>
      cases isNode
      obtain ⟨after, finished, same⟩ := map_toOption_eq_some.mp isLive
      cases same
      obtain ⟨round, digests, proposedHeaders⟩ := finishHeader_keeps finished
      exact (balanced before _ wasLive).keep _ round.ge digests proposedHeaders
    · cases isNode
  | wake table now later event =>
    dsimp only [ProposerNode.perform] at isNode
    split at isNode
    · next before wasLive =>
      split at isNode
      · split at isNode
        · cases isNode
          cases isLive
        · next sent after handled =>
          cases isNode
          cases isLive
          exact (balanced before none wasLive).wake _ allowed handled
      · cases isNode
    · cases isNode

/-- The states of a lifetime. -/
def Reachable (config : ProposerConfig) (store : ProposerStore) (now : Nat) : Lifetime → Prop :=
  Run (perform config) Allowed (start config store now)

theorem Reachable.balanced {now : Nat} (reachable : Reachable config store now lifetime) :
    lifetime.Balanced := by
  apply Run.invariant reachable
  · rintro proposer pending ⟨⟩
    refine ⟨?_, ?_, ?_, ?_, ?_, ?_⟩ <;>
      simp [start, spawn, outstanding]
  · exact fun _ _ _ balanced allowed performed => balanced.perform allowed performed

/-! ## Every batch is in one place -/

/-- Among headers that share no batch, as many hold a digest as there are batches with
it. -/
theorem length_filter_payload {groups : List (Header × List OurDigestMessage)}
    (payload : ∀ group ∈ groups, group.1.payload = payloadOf group.2)
    (distinct : ((groups.flatMap Prod.snd).map OurDigestMessage.digest).Nodup)
    (digest : BatchDigest) :
    (groups.filter fun group => digest ∈ group.1.payload.map Prod.fst).length =
      ((groups.flatMap Prod.snd).map OurDigestMessage.digest).count digest := by
  induction groups with
  | nil => rfl
  | cons group groups ih =>
    rw [flatMap_cons, map_append] at distinct ⊢
    obtain ⟨distinctHere, distinctRest, _⟩ := nodup_append.mp distinct
    have rest := ih (forall_mem_cons.mp payload).2 distinctRest
    rw [count_append, ← rest, filter_cons, payload group mem_cons_self]
    simp only [mem_payloadOf_iff]
    by_cases holds : digest ∈ group.2.map OurDigestMessage.digest
    · rw [count_eq_one_of_mem distinctHere holds]
      simp only [holds, decide_true, if_true, length_cons]
      omega
    · rw [count_eq_zero_of_not_mem holds]
      simp [holds]

/-- A digest has as many places as it was received. -/
theorem Accounts.length_places {lifetime : Lifetime} {proposer : Proposer}
    (accounts : lifetime.Accounts proposer)
    (distinct : (lifetime.received.map OurDigestMessage.digest).Nodup) (digest : BatchDigest) :
    (lifetime.places proposer digest).length =
      (lifetime.received.map OurDigestMessage.digest).count digest := by
  have listed := accounts.conserved.map OurDigestMessage.digest
  rw [listed.nodup_iff] at distinct
  rw [listed.count_eq]
  have inHeaders : proposer.outstanding =
      (proposer.proposedHeaders.toList.map Prod.snd).flatMap Prod.snd := by
    rw [outstanding, flatMap_map]
  simp only [map_append] at distinct ⊢
  obtain ⟨_, distinctHeaders, _⟩ := nodup_append.mp distinct
  obtain ⟨distinctProposed, distinctReported, _⟩ := nodup_append.mp distinctHeaders
  rw [inHeaders] at distinctProposed ⊢
  have payload : ∀ group ∈ proposer.proposedHeaders.toList.map Prod.snd,
      group.1.payload = payloadOf group.2 := by
    rintro ⟨header, messages⟩ listed
    obtain ⟨⟨round, proposed⟩, isEntry, rfl⟩ := mem_map.mp listed
    exact accounts.payload round header messages (accounts.isMade round _
      (mem_toList_iff_getElem?_eq_some.mp isEntry))
  have proposedLength := length_filter_payload payload distinctProposed digest
  rw [filter_map, length_map] at proposedLength
  have reportedLength := length_filter_payload
    (fun group listed => accounts.payloadReported group.1 group.2 listed) distinctReported digest
  have queueLength : (proposer.digests.filter fun message => message.digest = digest).length =
      (proposer.digests.map OurDigestMessage.digest).count digest := by
    rw [count_eq_countP, countP_map, countP_eq_length_filter]
    congr 1
  rw [count_append, count_append, ← proposedLength, ← reportedLength, ← queueLength]
  simp only [places, length_append, length_map, Nat.add_assoc]
  rfl

/-- In every lifetime of the proposer, at all times, the batches in the queue, in the
outstanding headers and in the headers made in the lifetime and reported committed are those
received.  A digest that was received once is in exactly one place.  A report puts back, in
the order of their rounds and in front of the queue, the batches of exactly the outstanding
headers up to the last committed round that are not committed themselves. -/
theorem batches_in_one_place (config : ProposerConfig) (store : ProposerStore) (now : Nat)
    (lifetime : Lifetime) (reachable : Reachable config store now lifetime) (proposer : Proposer)
    (pending : Option Header) (isLive : lifetime.node.live = some (proposer, pending)) :
    lifetime.received.Perm
        (proposer.digests ++ (proposer.outstanding ++ lifetime.reported.flatMap Prod.snd)) ∧
      ((lifetime.received.map OurDigestMessage.digest).Nodup →
        ∀ message ∈ lifetime.received, ∃ place, lifetime.places proposer message.digest = [place]) ∧
      ∀ rounds : List Nat, (proposer.receiveCommitted rounds).digests =
            (proposer.resent rounds).flatMap (fun entry => entry.2.2) ++ proposer.digests ∧
          ((proposer.resent rounds).Pairwise fun earlier later => earlier.1 < later.1) ∧
          (∀ entry, entry ∈ proposer.resent rounds ↔
            proposer.proposedHeaders[entry.1]? = some entry.2 ∧ entry.1 ∉ rounds ∧
              entry.1 ≤ rounds.foldl max 0) ∧
          ∀ round : Nat, (proposer.receiveCommitted rounds).proposedHeaders[round]? =
            if rounds.foldl max 0 < round then proposer.proposedHeaders[round]? else none := by
  have accounts := reachable.balanced proposer pending isLive
  refine ⟨accounts.conserved, ?_, ?_⟩
  · intro distinct message isReceived
    rw [← length_eq_one_iff, accounts.length_places distinct]
    exact count_eq_one_of_mem distinct (mem_map_of_mem isReceived)
  · intro rounds
    exact ⟨rfl, proposer.resent_ordered rounds, proposer.mem_resent_iff rounds,
      proposer.getElem?_receiveCommitted rounds⟩

instance (lifetime : Lifetime) (action : ProposerNode.Action) :
    Decidable (lifetime.Allowed action) :=
  match action with
  | .spawn _ | .crash => .isFalse id
  | .wake _ _ _ (.committed rounds) =>
    inferInstanceAs (Decidable (rounds.Pairwise (· < ·) ∧
      ∀ round ∈ rounds, lifetime.lastReported < round))
  | .propose _ _ _ | .finish _ _ _ | .wake _ _ _ (.repeatHeader _)
  | .wake _ _ _ (.parents _ _ _) | .wake _ _ _ (.digest _) | .wake _ _ _ .timer =>
    .isTrue trivial

/-- The second header is committed before the first one.  The batch of the first one is
put back. -/
theorem batches_in_one_place_resent :
    ∃ lifetime proposer, Reachable soloProposer ⟨none⟩ 0 lifetime ∧
      lifetime.node.live.map Prod.fst = some proposer ∧
      lifetime.received = [⟨1, 0, 0⟩, ⟨2, 0, 0⟩] ∧
      lifetime.places proposer 1 = [.queue] ∧ lifetime.places proposer 2 = [.committed 2] ∧
      lifetime.received.Perm
        (proposer.digests ++ (proposer.outstanding ++ lifetime.reported.flatMap Prod.snd)) := by
  obtain ⟨lifetime, reachable, live, received, places⟩ := exists_run
    (perform soloProposer) Allowed (start soloProposer ⟨none⟩ 0)
    [.wake .default 0 100 (.digest ⟨1, 0, 0⟩), .propose .default 500 500, .finish .default 500 true,
      .wake .default 500 600 (.parents [soloCertificate 1] 1 0),
      .wake .default 600 700 (.digest ⟨2, 0, 0⟩), .propose .default 1000 1000,
      .finish .default 1000 true, .wake .default 1000 1100 (.committed [2])]
    (fun lifetime => lifetime.node.live.isSome = true ∧ lifetime.received = [⟨1, 0, 0⟩, ⟨2, 0, 0⟩] ∧
      ∀ proposer ∈ lifetime.node.live, lifetime.places proposer.1 1 = [.queue] ∧
        lifetime.places proposer.1 2 = [.committed 2]) (by decide +kernel)
  obtain ⟨⟨proposer, pending⟩, isLive⟩ := Option.isSome_iff_exists.mp live
  obtain ⟨first, second⟩ := places _ isLive
  exact ⟨lifetime, proposer, reachable, by rw [isLive]; rfl, received, first, second,
    (batches_in_one_place soloProposer ⟨none⟩ 0 lifetime reachable proposer pending
      isLive).1⟩

/-- A header with one batch, which an earlier lifetime has persisted. -/
def persistedHeader : Header :=
  .new soloProposer.toPrimaryConfig 0 1 soloCommittee.epoch [(1, 0, 0)] ∅ 0

/-- The persisted header is sent again and reported committed.  The batch in it was received
and still waits in the queue. -/
theorem batch_of_persisted_header_queued :
    ∃ lifetime proposer, Reachable soloProposer ⟨some persistedHeader⟩ 0 lifetime ∧
      lifetime.node.live.map Prod.fst = some proposer ∧ lifetime.received = [⟨1, 0, 0⟩] ∧
      lifetime.places proposer 1 = [.queue] ∧ lifetime.node.sent = [persistedHeader] ∧
      persistedHeader.round = 1 ∧ lifetime.lastReported = 1 ∧
      1 ∈ persistedHeader.payload.map Prod.fst := by
  obtain ⟨lifetime, reachable, live, received, sent, reported, places⟩ := exists_run
    (perform soloProposer) Allowed (start soloProposer ⟨some persistedHeader⟩ 0)
    [.wake .default 0 100 (.digest ⟨1, 0, 0⟩), .propose .default 500 500, .finish .default 500 true,
      .wake .default 500 600 (.committed [1])]
    (fun lifetime => lifetime.node.live.isSome = true ∧ lifetime.received = [⟨1, 0, 0⟩] ∧
      lifetime.node.sent = [persistedHeader] ∧ lifetime.lastReported = 1 ∧
      ∀ proposer ∈ lifetime.node.live, lifetime.places proposer.1 1 = [.queue])
    (by decide +kernel)
  obtain ⟨⟨proposer, pending⟩, isLive⟩ := Option.isSome_iff_exists.mp live
  exact ⟨lifetime, proposer, reachable, by rw [isLive]; rfl, received, places _ isLive, sent, rfl,
    reported, by decide⟩

end Lifetime

end Sui.Narwhal
