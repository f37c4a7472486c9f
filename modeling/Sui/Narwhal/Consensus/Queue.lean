import Sui.Narwhal.Consensus.Ledger

/-!
# The queue of leaders

Ordering the past leaders of a supported leader returns the descent of the
abstract commit rule, oldest leader first.  When the oldest leader of a queue is
committed and the swap table stays, the rest of the queue is the queue of the
ledger after the commit.
-/

namespace Sui.Narwhal.Bullshark

open List hiding after
open LeaderSchedule (leaderCertificate leader_spec)

variable (bullshark : Bullshark) (history : CertificateSet)

/-- A queue of leaders to commit, oldest first. -/
structure LeaderQueue
    (table : LeaderSwapTable)
    (committedRound : Nat)
    (queue : List Certificate) : Prop where
  /-- Each leader is the latest one in the history of the next. -/
  descent : queue.IsChain fun earlier later =>
    bullshark.PrevLeader history table committedRound later earlier
  oldest : ∀ leader ∈ queue.head?, ∀ prevLeader,
    ¬ bullshark.PrevLeader history table committedRound leader prevLeader
  newest : ∀ leader ∈ queue.getLast?, bullshark.Anchor history table committedRound leader

variable {bullshark history} {table : LeaderSwapTable} {committedRound : Nat}

/-- A chain of leaders is a descent from the newest one. -/
theorem descent_of_isChain (chain : (leader :: rest).IsChain fun earlier later =>
      bullshark.PrevLeader history table committedRound later earlier) :
    ∃ newest ∈ (leader :: rest).getLast?,
      Relation.ReflTransGen (bullshark.PrevLeader history table committedRound)
        newest leader := by
  induction rest generalizing leader with
  | nil => exact ⟨leader, rfl, .refl⟩
  | cons later rest ih =>
    rw [isChain_cons_cons] at chain
    obtain ⟨newest, isNewest, descent⟩ := ih chain.2
    exact ⟨newest, by simpa using isNewest, descent.tail chain.1⟩

namespace LeaderQueue

variable {leader : Certificate} {rest : List Certificate}

section

variable (queue : bullshark.LeaderQueue history table committedRound (leader :: rest))

include queue

theorem nextLeader : bullshark.NextLeader history table committedRound leader := by
  obtain ⟨newest, isNewest, descent⟩ := descent_of_isChain queue.descent
  exact ⟨newest, queue.newest newest isNewest, descent, queue.oldest leader rfl⟩

theorem round_lt (listed : later ∈ rest) : leader.round < later.round := by
  have ascending : (leader :: rest).IsChain fun earlier later =>
      earlier.round < later.round :=
    queue.descent.imp fun _ _ step => step.below
  have : IsTrans Certificate fun earlier later => earlier.round < later.round :=
    ⟨fun _ _ _ => lt_trans⟩
  exact rel_of_pairwise_cons ascending.pairwise listed

end

/-- The descent above a higher committed round. -/
theorem prevLeader_raise (step : bullshark.PrevLeader history table committedRound later earlier)
    (above : committedRound' < earlier.round) :
    bullshark.PrevLeader history table committedRound' later earlier :=
  ⟨step.isLeader, above, step.below, step.path, step.latest⟩

/-- After the oldest leader is committed the rest is the queue of the new
ledger. -/
theorem tail (queue : bullshark.LeaderQueue history table committedRound (leader :: rest)) :
    bullshark.LeaderQueue history table leader.round rest where
  descent := by
    have chain : rest.IsChain fun earlier later =>
        bullshark.PrevLeader history table committedRound later earlier :=
      queue.descent.tail
    apply chain.imp_of_mem_imp
    intro earlier later earlierListed _ step
    exact prevLeader_raise step (queue.round_lt earlierListed)
  oldest := by
    intro oldest isOldest prevLeader step
    cases rest with
    | nil => cases isOldest
    | cons next rest =>
      cases isOldest
      have chain := queue.descent
      rw [isChain_cons_cons] at chain
      exact chain.1.latest prevLeader step.isLeader step.above step.below step.path
  newest := by
    intro newest isNewest
    cases rest with
    | nil => cases isNewest
    | cons next rest =>
      have anchor := queue.newest newest (by simpa using isNewest)
      exact ⟨anchor.isLeader, queue.round_lt (mem_of_getLast? isNewest), anchor.supported⟩

end LeaderQueue

/-! ## Collecting the queue -/

/-- The rounds are the even ones between two rounds, in descending order. -/
structure EvenRounds (lower upper : Nat) (rounds : List Nat) : Prop where
  descending : rounds.Pairwise (· > ·)
  mem_iff : ∀ round, round ∈ rounds ↔ round % 2 = 0 ∧ lower < round ∧ round < upper

/-- The even rounds below the first of them. -/
theorem EvenRounds.tail {lower upper round : Nat}
    (evenRounds : EvenRounds lower upper (round :: rounds)) :
    EvenRounds lower round rounds where
  descending := evenRounds.descending.of_cons
  mem_iff := by
    intro other
    have first := (evenRounds.mem_iff round).mp mem_cons_self
    constructor
    · intro listed
      have inside := (evenRounds.mem_iff other).mp (mem_cons_of_mem _ listed)
      exact ⟨inside.1, inside.2.1, rel_of_pairwise_cons evenRounds.descending listed⟩
    · rintro ⟨even, above, below⟩
      have listed := (evenRounds.mem_iff other).mpr ⟨even, above, by omega⟩
      rcases mem_cons.mp listed with same | later
      · omega
      · exact later

/-- The past rounds are the even ones in between. -/
theorem evenRounds_pastLeaderRounds (committedEven : committedRound % 2 = 0)
    (leaderEven : leaderRound % 2 = 0) :
    EvenRounds committedRound leaderRound
      (pastLeaderRounds committedRound leaderRound) where
  descending := by
    rw [pastLeaderRounds, pairwise_map]
    apply (pairwise_lt_range).imp_of_mem
    intro first second firstListed secondListed before
    rw [mem_range] at firstListed secondListed
    omega
  mem_iff := by
    intro round
    rw [pastLeaderRounds, mem_map]
    constructor
    · rintro ⟨index, listed, rfl⟩
      rw [mem_range] at listed
      omega
    · rintro ⟨even, above, below⟩
      refine ⟨(leaderRound - 2 - round) / 2, ?_, by omega⟩
      rw [mem_range]
      omega

section Collect

variable {gc : Nat} {dag : Dag}

/-- The certificate of the leader of an even round. -/
theorem leaderCertificate_spec (view : history.View gc dag)
    (forCommittee : table.ForCommittee bullshark.committee) {round : Nat} (even : round % 2 = 0) :
    (∃ authority found, leaderCertificate bullshark.committee
        bullshark.election table round dag = .ok (authority, found) ∧
      (∀ certificate, found = some certificate → InDag dag certificate ∧ certificate.round = round ∧
        bullshark.IsLeader history table certificate) ∧
      (found = none → ∀ certificate, InDag dag certificate → certificate.round = round →
          ¬ bullshark.IsLeader history table certificate)) ∨
    leaderCertificate bullshark.committee bullshark.election table
      round dag = .error (.panic .noGoodNode) := by
  unfold leaderCertificate
  rcases leader_spec bullshark.election forCommittee even
    with ⟨authority, elected, member⟩ | failed
  · left
    rw [elected]
    refine ⟨authority, _, rfl, ?_, ?_⟩
    · intro certificate found
      obtain ⟨⟨digest, certificate⟩, filed, rfl⟩ := Option.map_eq_some_iff.mp found
      obtain ⟨inside, sameRound, sameOrigin, _⟩ := view.dagEntry_eq_some_iff.mp filed
      refine ⟨inside, sameRound, view.mem inside, authority, ?_, sameOrigin.symm⟩
      rw [sameRound]
      exact elected
    · intro absent certificate inside sameRound isLeader
      change (dagEntry dag round authority.id).map Prod.snd = _ at absent
      obtain ⟨authority', elected', origin⟩ := isLeader.elected
      rw [sameRound, elected] at elected'
      cases elected'
      rw [origin, ← sameRound, show dagEntry dag certificate.round
        certificate.origin = _ from inside] at absent
      cases absent
  · right
    rw [failed]

/-- Collecting leaders down the rounds extends the descent to its end. -/
theorem collectLeaders_spec (view : history.View gc dag)
    (forCommittee : table.ForCommittee bullshark.committee) (collected : gc ≤ committedRound)
    (evenRounds : EvenRounds committedRound bound rounds) (below : bound ≤ leader.round)
    (skipped : ∀ other, bullshark.IsLeader history table other →
      bound ≤ other.round → other.round < leader.round → ¬ history.Path leader other)
    (chain : (leader :: rest).IsChain fun earlier later =>
      bullshark.PrevLeader history table committedRound later earlier)
    (newest : ∀ newest ∈ (leader :: rest).getLast?,
      bullshark.Anchor history table committedRound newest)
    (present : ∀ certificate ∈ leader :: rest, InDag dag certificate) :
    (∃ queue, bullshark.collectLeaders table dag rounds leader (leader :: rest) = .ok queue ∧
      bullshark.LeaderQueue history table committedRound queue ∧
      queue.getLast? = (leader :: rest).getLast? ∧ ∀ certificate ∈ queue, InDag dag certificate) ∨
    bullshark.collectLeaders table dag rounds leader (leader :: rest) =
      .error (.panic .noGoodNode) := by
  induction rounds generalizing bound leader rest with
  | nil =>
    left
    refine ⟨leader :: rest, rfl, ⟨chain, ?_, newest⟩, rfl, present⟩
    intro oldest isOldest prevLeader step
    cases isOldest
    rcases Nat.lt_or_ge prevLeader.round bound with lower | higher
    · have listed := (evenRounds.mem_iff prevLeader.round).mpr
        ⟨step.isLeader.even, step.above, lower⟩
      cases listed
    · exact skipped prevLeader step.isLeader higher step.below step.path
  | cons round rounds ih =>
    obtain ⟨even, above, roundBelow⟩ := (evenRounds.mem_iff round).mp mem_cons_self
    have leaderPresent := present leader mem_cons_self
    -- Between this round and the bound there is no other even round.
    have between : ∀ other, bullshark.IsLeader history table other →
        round < other.round → other.round < leader.round → ¬ history.Path leader other := by
      intro other isLeader higher lower
      rcases Nat.lt_or_ge other.round bound with inside | outside
      · have listed := (evenRounds.mem_iff other.round).mpr ⟨isLeader.even, by omega, inside⟩
        rcases mem_cons.mp listed with same | later
        · omega
        · have := rel_of_pairwise_cons evenRounds.descending later
          omega
      · exact skipped other isLeader outside lower
    have keep : (∀ other, bullshark.IsLeader history table other →
          other.round = round → ¬ history.Path leader other) →
        ∀ other, bullshark.IsLeader history table other →
          round ≤ other.round → other.round < leader.round → ¬ history.Path leader other := by
      intro notHere other isLeader higher lower
      rcases Nat.eq_or_lt_of_le higher with same | strictly
      · exact notHere other isLeader same.symm
      · exact between other isLeader strictly lower
    unfold collectLeaders
    rcases leaderCertificate_spec view forCommittee even
      with ⟨authority, found, elected, whenFound, whenAbsent⟩ | failed
    · rw [elected]
      cases found with
      | none =>
        apply ih evenRounds.tail (by omega) _ chain newest present
        apply keep
        intro other isLeader sameRound path
        exact whenAbsent rfl other
          (view.inDag_of_path leaderPresent path (by omega)) sameRound isLeader
      | some prevLeader =>
        obtain ⟨inside, sameRound, isLeader⟩ := whenFound prevLeader rfl
        obtain ⟨answer, searched, answerIff⟩ := view.linked_spec
          leaderPresent inside (by omega) (by omega)
        simp only [searched]
        cases answer with
        | true =>
          have path := answerIff.mp rfl
          have step : bullshark.PrevLeader history table committedRound leader prevLeader :=
            ⟨isLeader, by omega, by omega, path, by
              simpa only [sameRound] using between⟩
          have extendedPresent : ∀ certificate ∈
              prevLeader :: leader :: rest, InDag dag certificate :=
            forall_mem_cons.mpr ⟨inside, present⟩
          have result := ih evenRounds.tail (by omega) (fun other _ higher lower => by omega)
            (isChain_cons_cons.mpr ⟨step, chain⟩) (by simpa using newest) extendedPresent
          simpa using result
        | false =>
          apply ih evenRounds.tail (by omega) _ chain newest present
          apply keep
          intro other otherLeader otherRound path
          obtain rfl := otherLeader.unique isLeader (by omega)
          exact absurd (answerIff.mpr path) (by simp)
    · right
      rw [failed]

end Collect

/-- A leader is a member of the committee. -/
theorem IsLeader.origin_lt_size (forCommittee : table.ForCommittee bullshark.committee)
    (isLeader : bullshark.IsLeader history table certificate) :
    certificate.origin < bullshark.committee.size := by
  obtain ⟨authority, elected, origin⟩ := isLeader.elected
  rcases leader_spec bullshark.election forCommittee isLeader.even
    with ⟨authority', elected', member⟩ | failed
  · rw [elected] at elected'
    cases elected'
    rw [← origin]
    exact bullshark.committee.id_lt_size member
  · rw [elected] at failed
    cases failed

/-- Every entry of the queue is a leader. -/
theorem LeaderQueue.isLeader (isQueue : bullshark.LeaderQueue history table committedRound queue)
    (listed : leader ∈ queue) :
    bullshark.IsLeader history table leader := by
  induction queue generalizing committedRound with
  | nil => cases listed
  | cons oldest rest ih =>
    rcases mem_cons.mp listed with rfl | later
    · exact isQueue.nextLeader.isLeader
    · exact ih isQueue.tail later

/-- Ordering the past leaders of a supported leader returns a queue that ends
with it, or no good node is left for an election. -/
theorem orderLeaders_spec (view : history.View node.state.lastRound.gcRound node.state.dag)
    (sane : node.ledger.Sane bullshark.committee) (present : InDag node.state.dag leader)
    (anchor : bullshark.Anchor history node.leaderSwapTable
      node.state.lastRound.committedRound leader) :
    (∃ queue, bullshark.orderLeaders leader node = .ok queue ∧
      bullshark.LeaderQueue history node.leaderSwapTable node.state.lastRound.committedRound queue ∧
      queue.getLast? = some leader ∧
      ∀ certificate ∈ queue, InDag node.state.dag certificate) ∨
    bullshark.orderLeaders leader node = .error (.panic .noGoodNode) := by
  have leaderEven := anchor.isLeader.even
  have collected : node.state.lastRound.gcRound ≤ node.state.lastRound.committedRound :=
    sane.gcRound_le
  have past : EvenRounds node.state.lastRound.committedRound leader.round
      (pastLeaderRounds node.state.lastRound.committedRound leader.round) :=
    evenRounds_pastLeaderRounds sane.even leaderEven
  have forCommittee : node.leaderSwapTable.ForCommittee bullshark.committee := sane.table
  unfold orderLeaders
  rw [if_neg (by omega)]
  rcases collectLeaders_spec view forCommittee collected past le_rfl
      (fun other _ higher lower => by omega) (isChain_singleton leader) (by simpa using anchor)
      (by simpa using present)
    with ⟨queue, result, isQueue, last, inside⟩ | failed
  · left
    have members : queue.find? (fun certificate =>
        (bullshark.committee.authority certificate.origin).isNone) = none := by
      rw [find?_eq_none]
      intro certificate listed
      have member := (isQueue.isLeader listed).origin_lt_size sane.table
      rw [← bullshark.committee.authority_isSome_iff] at member
      simp only [Bool.not_eq_true]
      rw [Option.isNone_eq_false_iff]
      exact member
    simp only [result, members]
    exact ⟨queue, rfl, isQueue, last, inside⟩
  · right
    simp only [failed]

end Sui.Narwhal.Bullshark
