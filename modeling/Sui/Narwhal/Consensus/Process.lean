import Sui.Narwhal.Consensus.Queue

/-!
# Processing certificates refines the commit relation

Every durable write of a validator is the next commit of its ledger.  The
refinement is stated with the program logic of emitting computations: from a
sound validator the writes of each function follow the relation `NextCommit`,
and the validator it returns is sound again and holds the ledger at the end of
the writes.

A function can only fail where the rest of the system allows it to: no good node
is left to swap a leader with, or a certificate of an outsider was committed.
-/

namespace Sui
namespace Narwhal

open List hiding after
open Library (Emit)
open Std (ExtTreeMap)
open Library.Map
open ConsensusState (update tryInsert)

/-! ## Recording in the state -/

theorem ConsensusState.foldl_update_ledger (sequence : List Certificate) (state : ConsensusState)
    (table : LeaderSwapTable) :
    (sequence.foldl update state).ledger table =
      sequence.foldl Ledger.update (state.ledger table) := by
  induction sequence generalizing state with
  | nil => rfl
  | cons certificate sequence ih =>
    exact ih (state.update certificate)

/-- Recording a sequence keeps a view, with the certificates that stay above
garbage collection. -/
theorem CertificateSet.View.foldl_update {history : CertificateSet} (sequence : List Certificate)
    (view : history.View state.lastRound.gcRound state.dag)
    (consistent : state.lastRound.gcRound = gcRound state.lastRound.committedRound state.gcDepth) :
    let recorded := sequence.foldl update state
    history.View recorded.lastRound.gcRound recorded.dag ∧
      state.lastRound.gcRound ≤ recorded.lastRound.gcRound ∧
      (∀ certificate, InDag state.dag certificate → recorded.lastRound.gcRound < certificate.round →
          InDag recorded.dag certificate) ∧
      ∀ certificate, InDag recorded.dag certificate → InDag state.dag certificate := by
  induction sequence generalizing state with
  | nil => exact ⟨view, le_rfl, fun _ inside _ => inside, fun _ inside => inside⟩
  | cons first sequence ih =>
    have higher : state.lastRound.gcRound ≤ (state.update first).lastRound.gcRound := by
      rw [consistent]
      change _ - _ ≤ max _ _ - _
      omega
    obtain ⟨recordedView, recordedHigher, kept, old⟩ := ih (view.filter higher) rfl
    refine ⟨recordedView, le_trans higher recordedHigher, ?_, ?_⟩
    · intro certificate inside above
      apply kept certificate _ above
      exact CertificateSet.View.inDag_filter_iff.mpr ⟨by
        exact lt_of_le_of_lt recordedHigher above, inside⟩
    · intro certificate inside
      exact (CertificateSet.View.inDag_filter_iff.mp (old certificate inside)).2

/-- What holds of a validator between two certificates, when it has been given
the certificates `delivered`. -/
structure Node.Sound
    (bullshark : Bullshark)
    (history : CertificateSet)
    (delivered : Set Certificate)
    (node : Node) : Prop where
  sane : node.ledger.Sane bullshark.committee
  view : history.View node.state.lastRound.gcRound node.state.dag
  complete : ∀ certificate ∈ delivered, node.state.lastRound.gcRound < certificate.round →
      InDag node.state.dag certificate
  within : ∀ certificate, InDag node.state.dag certificate → certificate ∈ delivered

theorem Node.Sound.table {node : Node} (sound : node.Sound bullshark history delivered) :
    node.leaderSwapTable.ForCommittee bullshark.committee :=
  sound.sane.table

namespace Bullshark

variable {bullshark : Bullshark} {history : CertificateSet}

/-- The failures that the commit rule does not exclude. -/
def Excused (bullshark : Bullshark) (history : CertificateSet) (failure : Failure) : Prop :=
  failure = .panic .noGoodNode ∨ (failure = .panic .scoresOutsideCommittee ∧
      ∃ certificate ∈ history, ¬ certificate.origin < bullshark.committee.size)

/-- The next commit, made of delivered certificates. -/
def NextCommitFrom (bullshark : Bullshark) (history : CertificateSet) (delivered : Set Certificate)
    (before : Ledger) (write : CommitRecord) (after : Ledger) : Prop :=
  bullshark.NextCommit history before write after ∧
    ∀ certificate ∈ write.subDag.certificates, certificate ∈ delivered

/-- What the commit of one leader does to a sound validator. -/
structure CommittedState
    (bullshark : Bullshark)
    (history : CertificateSet)
    (node : Node)
    (leader : Certificate)
    (write : CommitRecord)
    (state : ConsensusState) : Prop where
  /-- The write is the next commit, whatever the swap table after it is. -/
  next : ∀ table changed, bullshark.updateLeaderSchedule node.leaderSwapTable
      leader.round write.subDag.reputationScore = .ok (table, changed) →
    bullshark.NextCommit history node.ledger write (state.ledger table)
  scores : write.subDag.reputationScore.ForCommittee bullshark.committee
  committedRound : state.lastRound.committedRound = leader.round
  view : history.View state.lastRound.gcRound state.dag
  higher : node.state.lastRound.gcRound ≤ state.lastRound.gcRound
  kept : ∀ certificate, InDag node.state.dag certificate →
    state.lastRound.gcRound < certificate.round → InDag state.dag certificate
  old : ∀ certificate, InDag state.dag certificate → InDag node.state.dag certificate
  committed : ∀ certificate ∈ write.subDag.certificates, InDag node.state.dag certificate

variable {node : Node} {delivered : Set Certificate}
  (sound : node.Sound bullshark history delivered)

include sound

/-- Committing the sub-dag of the next leader. -/
theorem commitSubDag_spec (next : bullshark.NextLeader history node.leaderSwapTable
      node.state.lastRound.committedRound leader)
    (present : InDag node.state.dag leader) :
    (∃ write state, bullshark.commitSubDag leader node.state = .ok (write, state) ∧
      bullshark.CommittedState history node leader write state) ∨
    (∃ failure, bullshark.commitSubDag leader node.state = .error failure ∧
      bullshark.Excused history failure) := by
  have above := next.above
  have gc : node.state.lastRound.gcRound = gcRound
    node.state.lastRound.committedRound node.state.gcDepth := sound.sane.gc
  have lower : node.state.lastRound.gcRound ≤ gcRound leader.round node.state.gcDepth := by
    rw [gc, gcRound, gcRound]
    omega
  obtain ⟨sequence, ordered, flattened⟩ := sound.view.orderDag_spec present
    (by omega) sound.sane.depth lower
  have highest : ∀ certificate ∈ sequence, certificate.round ≤ leader.round :=
    fun certificate listed => (flattened.path certificate listed).1.round_le
  set recorded := sequence.foldl update node.state with recordedDefinition
  have recordedLedger : recorded.ledger node.leaderSwapTable =
      sequence.foldl Ledger.update node.ledger :=
    ConsensusState.foldl_update_ledger sequence node.state node.leaderSwapTable
  have lastSubDag : recorded.lastCommittedSubDag = node.state.lastCommittedSubDag := by
    change (recorded.ledger node.leaderSwapTable).lastCommittedSubDag = _
    rw [recordedLedger, Ledger.foldl_update_lastCommittedSubDag]
    rfl
  obtain ⟨recordedView, higher, kept, old⟩ := sound.view.foldl_update sequence gc
  have first : node.state.lastCommittedSubDag = none → node.state.nextSubDagIndex = 1 := by
    intro absent
    simp [ConsensusState.nextSubDagIndex, absent]
  unfold commitSubDag
  simp only [ordered, ← recordedDefinition, lastSubDag]
  rcases resolveReputationScore_spec sequence first
      (fun last isLast => (sound.sane.last last isLast).2)
    with ⟨scores, resolved, forCommittee, _⟩ | ⟨failed, outsider, listed, outside⟩
  · left
    rw [resolved]
    refine ⟨_, _, rfl, ?_, forCommittee, ?_, recordedView, higher, kept, old, ?_⟩
    · intro table changed scheduled
      refine ⟨leader, sequence, scores, table, ⟨sound.sane, next,
        ⟨node.state.dag, sound.view, present, ordered⟩, resolved,
        ⟨changed, scheduled⟩⟩, rfl, rfl, rfl, ?_⟩
      unfold Ledger.commit CommittedSubDag.new
      rw [← recordedLedger]
      rfl
    · change (recorded.ledger node.leaderSwapTable).lastRound.committedRound = _
      rw [recordedLedger]
      exact Ledger.foldl_update_committedRound flattened.leaderFound highest above.le
    · intro certificate listed
      obtain ⟨path, pathAbove⟩ := flattened.path certificate listed
      exact sound.view.inDag_of_path present path (lt_of_le_of_lt lower pathAbove)
  · right
    rw [failed]
    exact ⟨_, rfl, .inr ⟨rfl, outsider,
      (flattened.path outsider listed).1.mem (sound.view.mem present), outside⟩⟩

/-! ## Committing a queue of leaders -/

/-- What committing leaders returns: a sound validator with the ledger at the
end of its writes.  If the schedule changed, the validator has committed a
leader and has not reached the leader of `leaderRound`. -/
def Returned (bullshark : Bullshark) (history : CertificateSet) (delivered : Set Certificate)
    (leaderRound : Nat) (node : Node) (result : Outcome × Node) (ledger : Ledger) : Prop :=
  result.2.Sound bullshark history delivered ∧
  result.2.ledger = ledger ∧
  node.state.lastRound.gcRound ≤ result.2.state.lastRound.gcRound ∧
  (∀ certificate, InDag node.state.dag certificate →
    result.2.state.lastRound.gcRound < certificate.round → InDag result.2.state.dag certificate) ∧
  (result.1 = .scheduleChanged → node.state.lastRound.committedRound <
        result.2.state.lastRound.committedRound ∧
      result.2.state.lastRound.committedRound < leaderRound)

/-- The validator after one leader of a queue is committed. -/
theorem CommittedState.node_sound
    (committed : bullshark.CommittedState history node leader write state)
    (scheduled : bullshark.updateLeaderSchedule node.leaderSwapTable leader.round
      write.subDag.reputationScore = .ok (table, changed)) :
    ({ node with state := state, leaderSwapTable := table } : Node).Sound
      bullshark history delivered where
  sane := (committed.next table changed scheduled).sane
  view := committed.view
  complete := by
    intro certificate isDelivered above
    exact committed.kept certificate (sound.complete certificate isDelivered
      (lt_of_le_of_lt committed.higher above)) above
  within := fun certificate inside =>
    sound.within certificate (committed.old certificate inside)

omit sound in
/-- What is returned after a later commit holds after an earlier one. -/
theorem Returned.after_commit {next : Node}
    (committed : bullshark.CommittedState history node leader write next.state)
    (above : node.state.lastRound.committedRound < leader.round)
    (returned : bullshark.Returned history delivered leaderRound next result ledger) :
    bullshark.Returned history delivered leaderRound node result ledger := by
  obtain ⟨sound, sameLedger, higher, kept, changed⟩ := returned
  refine ⟨sound, sameLedger, le_trans committed.higher higher, ?_, ?_⟩
  · intro certificate inside finalAbove
    exact kept certificate (committed.kept certificate inside
      (lt_of_le_of_lt higher finalAbove)) finalAbove
  · intro isChanged
    have between := changed isChanged
    rw [committed.committedRound] at between
    exact ⟨lt_trans above between.1, between.2⟩

/-- Committing a queue of leaders emits the next commits. -/
theorem commitLeaders_follows (isQueue : bullshark.LeaderQueue history node.leaderSwapTable
      node.state.lastRound.committedRound queue)
    (newest : ∀ leader ∈ queue.getLast?, leader.round = leaderRound)
    (present : ∀ leader ∈ queue, InDag node.state.dag leader) :
    Emit.Follows (bullshark.NextCommitFrom history delivered) node.ledger
      (bullshark.commitLeaders queue node)
      (bullshark.Returned history delivered leaderRound node)
      (fun failure _ => bullshark.Excused history failure) := by
  induction queue generalizing node with
  | nil =>
    apply Emit.Follows.pure
    exact ⟨sound, rfl, le_rfl, fun _ inside _ => inside, by simp⟩
  | cons leader rest ih =>
    have next := isQueue.nextLeader
    have above := next.above
    rcases commitSubDag_spec sound next (present leader mem_cons_self)
      with ⟨write, state, result, committed⟩ | ⟨failure, failed, excused⟩
    · obtain ⟨table, changed, scheduled, _, unchanged⟩ :=
        updateLeaderSchedule_spec leader.round committed.scores sound.table
      apply Emit.Follows.ofExcept_ok result
      apply Emit.Follows.emit_bind ⟨committed.next table changed scheduled,
        fun certificate listed => sound.within certificate
          (committed.committed certificate listed)⟩
      apply Emit.Follows.ofExcept_ok scheduled
      dsimp only
      have nextSound := committed.node_sound sound scheduled
      have sameRound := committed.committedRound
      by_cases stop : (changed && !rest.isEmpty) = true
      · rw [if_pos stop]
        apply Emit.Follows.pure
        refine ⟨nextSound, rfl, committed.higher, committed.kept, ?_⟩
        intro _
        cases rest with
        | nil => simp at stop
        | cons later rest =>
          have isLast := getLast?_eq_some_getLast (cons_ne_nil later rest)
          have lastRound := newest _ (by simpa using isLast)
          have higher := isQueue.round_lt (mem_of_getLast? isLast)
          change node.state.lastRound.committedRound < state.lastRound.committedRound ∧
            state.lastRound.committedRound < leaderRound
          omega
      · rw [if_neg stop]
        have restQueue : bullshark.LeaderQueue history table
            state.lastRound.committedRound rest := by
          rw [sameRound]
          cases rest with
          | nil => exact ⟨by simp, by simp, by simp⟩
          | cons later rest =>
            obtain rfl : table = node.leaderSwapTable := by
              cases changed with
              | false => exact unchanged rfl
              | true => simp at stop
            exact isQueue.tail
        have restNewest : ∀ last ∈ rest.getLast?, last.round = leaderRound := by
          intro last isLast
          apply newest
          cases rest with
          | nil => cases isLast
          | cons later rest => simpa using isLast
        have restPresent : ∀ later ∈ rest, InDag state.dag later := by
          intro later listed
          apply committed.kept later (present later (mem_cons_of_mem _ listed))
          have higher := isQueue.round_lt listed
          exact lt_of_le_of_lt nextSound.sane.gcRound_le (sameRound.trans_lt higher)
        exact (ih nextSound restQueue restNewest restPresent).mono
            (fun _ _ returned => returned.after_commit committed above)
            (fun _ _ excused => excused)
    · exact Emit.Follows.ofExcept_error failed excused

/-! ## Committing the leader of a round -/

omit sound in
/-- The origins of the certificates of a round in memory are distinct. -/
theorem nodup_origins (view : history.View gc dag) {round : Nat}
    (found : dag[round]? = some roundTable) :
    ((values roundTable).map fun entry => entry.2.origin).Nodup := by
  have keys : (values roundTable).map (fun entry => entry.2.origin) =
      roundTable.toList.map Prod.fst := by
    rw [values, map_map]
    apply map_congr_left
    rintro ⟨origin, digest, certificate⟩ listed
    have filed : dagEntry dag round origin = some (digest, certificate) := by
      rw [dagEntry, found]
      exact ExtTreeMap.mem_toList_iff_getElem?_eq_some.mp listed
    exact (view.sound _ _ _ _ filed).2.2.1
  rw [keys, List.Nodup, pairwise_map]
  exact ExtTreeMap.distinct_keys_toList.imp fun different same =>
    different (by simp [same])

omit sound in
/-- Enough stake in memory supports a leader in the certificate set. -/
theorem supported_of_validity_le (view : history.View gc dag) {leader : Certificate}
    (member : leader ∈ history) (found : dag[leader.round + 1]? = some roundTable)
    (enough : bullshark.committee.validityThreshold ≤ bullshark.support leader roundTable) :
    history.Supported bullshark.committee leader := by
  set votes := (values roundTable).filter fun entry =>
    entry.2.parents.contains leader.digest with votesDefinition
  refine ⟨votes.map Prod.snd, ?_, ?_, ?_⟩
  · intro voter listed
    obtain ⟨⟨digest, certificate⟩, voted, rfl⟩ := mem_map.mp listed
    rw [votesDefinition, mem_filter, contains_iff_mem] at voted
    obtain ⟨inside, sameRound, _⟩ := (view.mem_values_iff found _ _).mp voted.1
    exact ⟨view.mem inside, member, voted.2, sameRound.symm⟩
  · rw [map_map]
    exact (nodup_origins view found).sublist (filter_sublist.map _)
  · rw [support, ← votesDefinition] at enough
    simpa only [map_map, Function.comp_def] using enough

/-- Committing a leader emits the next commits. -/
theorem commitLeader_follows (even : leaderRound % 2 = 0)
    (above : node.state.lastRound.committedRound < leaderRound)
    (present : InDag node.state.dag trigger) (triggers : trigger.round = leaderRound + 1) :
    Emit.Follows (bullshark.NextCommitFrom history delivered) node.ledger
      (bullshark.commitLeader leaderRound node)
      (bullshark.Returned history delivered leaderRound node)
      (fun failure _ => bullshark.Excused history failure) := by
  have unchanged : ∀ outcome, outcome ≠ .scheduleChanged →
      bullshark.Returned history delivered leaderRound node (outcome, node) node.ledger :=
    fun outcome different => ⟨sound, rfl, le_rfl, fun _ inside _ => inside,
      fun same => absurd same different⟩
  rcases leaderCertificate_spec sound.view sound.table even
    with ⟨authority, found, elected, whenFound, _⟩ | failed
  · apply Emit.Follows.ofExcept_ok elected
    cases found with
    | none => exact Emit.Follows.pure (unchanged _ (by decide))
    | some leader =>
      obtain ⟨inside, rfl, isLeader⟩ := whenFound leader rfl
      obtain ⟨roundTable, tableFound⟩ := exists_roundTable_of_dagEntry present
      rw [triggers] at tableFound
      simp only [tableFound]
      split
      · exact Emit.Follows.pure (unchanged _ (by decide))
      · next enough =>
        have anchor : bullshark.Anchor history node.leaderSwapTable
            node.state.lastRound.committedRound leader :=
          ⟨isLeader, above, supported_of_validity_le sound.view
            isLeader.mem tableFound (Nat.le_of_not_lt enough)⟩
        rcases orderLeaders_spec sound.view sound.sane inside anchor
          with ⟨queue, ordered, isQueue, last, queued⟩ | failed
        · apply Emit.Follows.ofExcept_ok ordered
          apply commitLeaders_follows sound isQueue _ queued
          intro newest isNewest
          rw [last] at isNewest
          cases isNewest
          rfl
        · exact Emit.Follows.ofExcept_error failed (.inl rfl)
  · exact Emit.Follows.ofExcept_error failed (.inl rfl)

/-- Repeating the commit while the schedule changes follows the commit relation,
and the bound of the loop is never reached. -/
theorem commitUntilScheduleStable_follows (even : leaderRound % 2 = 0)
    (above : node.state.lastRound.committedRound < leaderRound)
    (present : InDag node.state.dag trigger) (triggers : trigger.round = leaderRound + 1)
    (enough : leaderRound < node.state.lastRound.committedRound + fuel) :
    Emit.Follows (bullshark.NextCommitFrom history delivered) node.ledger
      (bullshark.commitUntilScheduleStable leaderRound fuel node)
      (fun result ledger => result.2.Sound bullshark history delivered ∧ result.2.ledger = ledger)
      (fun failure _ => bullshark.Excused history failure) := by
  induction fuel generalizing node with
  | zero => omega
  | succ fuel ih =>
    apply Emit.Follows.bind (commitLeader_follows sound even above present triggers)
    rintro ⟨outcome, next⟩ ledger ⟨nextSound, rfl, _, kept, changed⟩
    dsimp only at nextSound kept changed ⊢
    split
    · next isChanged =>
      obtain ⟨progress, notReached⟩ := changed isChanged
      have low : next.state.lastRound.gcRound ≤ next.state.lastRound.committedRound :=
        nextSound.sane.gcRound_le
      exact ih nextSound notReached (kept trigger present (by omega)) (by omega)
    · exact Emit.Follows.pure ⟨nextSound, rfl⟩

/-! ## Processing a certificate -/

/-- Inserting a certificate whose parents are there. -/
theorem tryInsert_spec (member : certificate ∈ history)
    (parents : node.state.lastRound.gcRound + 1 < certificate.round →
      ∀ parent, history.Parent certificate parent → parent ∈ delivered) :
    ∃ state, node.state.tryInsert certificate = .ok (state,
        decide (node.state.lastRound.gcRound < certificate.round ∧
          node.state.lastCommitted.getD certificate.origin 0 < certificate.round)) ∧
      ({ node with state := state } : Node).ledger = node.ledger ∧
      ({ node with state := state } : Node).Sound bullshark history
        (insert certificate delivered) := by
  have inMemory : node.state.lastRound.gcRound + 1 < certificate.round →
      ∀ parent, history.Parent certificate parent → InDag node.state.dag parent := by
    intro above parent step
    have below := step.below
    exact sound.complete parent (parents above parent step) (by omega)
  obtain ⟨dag, inserted, view, present⟩ := sound.view.tryInsertInDag_spec
    member inMemory node.state.lastCommitted
  refine ⟨{ node.state with dag := dag }, ?_, rfl, sound.sane, view, ?_, ?_⟩
  · rw [tryInsert, inserted]
  · intro other isDelivered above
    apply (present other).mpr
    rcases isDelivered with rfl | earlier
    · exact .inr ⟨rfl, above⟩
    · exact .inl (sound.complete other earlier above)
  · intro other inside
    rcases (present other).mp inside with earlier | ⟨rfl, _⟩
    · exact .inr (sound.within other earlier)
    · exact .inl rfl

/-- Reporting a leader changes a counter only. -/
theorem reportLeaderOnTime_spec (round : Nat) :
    (∃ counter, bullshark.reportLeaderOnTime round node =
      .ok { node with maxInsertedCertificateRound := counter }) ∨
    bullshark.reportLeaderOnTime round node = .error (.panic .noGoodNode) := by
  unfold reportLeaderOnTime
  split
  · next reported =>
    rcases LeaderSchedule.leader_spec bullshark.election sound.table
        (show (round - 2) % 2 = 0 by omega)
      with ⟨authority, elected, _⟩ | failed
    · left
      exact ⟨_, by rw [elected]⟩
    · right
      rw [failed]
  · exact .inl ⟨_, rfl⟩

/-- Processing a certificate emits the next commits. -/
theorem processCertificate_follows (member : certificate ∈ history)
    (parents : node.state.lastRound.gcRound + 1 < certificate.round →
      ∀ parent, history.Parent certificate parent → parent ∈ delivered) :
    Emit.Follows (bullshark.NextCommitFrom history (insert certificate delivered)) node.ledger
      (bullshark.processCertificate certificate node)
      (fun result ledger =>
        result.2.Sound bullshark history (insert certificate delivered) ∧ result.2.ledger = ledger)
      (fun failure _ => bullshark.Excused history failure) := by
  obtain ⟨state, inserted, sameLedger, insertedSound⟩ := tryInsert_spec sound member parents
  apply Emit.Follows.ofExcept_ok inserted
  dsimp only
  rw [← sameLedger]
  split
  · exact Emit.Follows.pure ⟨insertedSound, rfl⟩
  · next isInserted =>
    obtain ⟨above, _⟩ := of_decide_eq_true (Bool.eq_true_of_not_eq_false isInserted)
    rcases reportLeaderOnTime_spec insertedSound certificate.round with ⟨counter, reported⟩ | failed
    · apply Emit.Follows.ofExcept_ok reported
      have reportedSound : Node.Sound bullshark history (insert certificate delivered)
          ⟨state, node.leaderSwapTable, counter⟩ := { insertedSound with }
      split
      · exact Emit.Follows.pure ⟨reportedSound, rfl⟩
      · next elects =>
        split
        · exact Emit.Follows.pure ⟨reportedSound, rfl⟩
        · next notCommitted =>
          have sameRound : state.lastRound = node.state.lastRound :=
            congrArg Ledger.lastRound sameLedger
          have present : InDag state.dag certificate :=
            insertedSound.complete certificate (Set.mem_insert _ _) (sameRound ▸ above)
          have committedBelow : state.lastRound.committedRound <
            certificate.round - 1 := Nat.lt_of_not_le notCommitted
          apply Emit.Follows.bind (commitUntilScheduleStable_follows
            reportedSound (by omega) committedBelow present (by omega)
            (Nat.lt_of_lt_of_le (Nat.lt_succ_self _) (Nat.le_add_left _ _)))
          rintro ⟨outcome, next⟩ ledger ⟨nextSound, rfl⟩
          exact Emit.Follows.pure ⟨nextSound, rfl⟩
    · exact Emit.Follows.ofExcept_error failed (.inl rfl)

end Bullshark

end Narwhal
end Sui
