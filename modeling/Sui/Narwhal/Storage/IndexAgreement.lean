import Sui.Narwhal.Storage.StoreTracking

/-!
# The views and queries of the certificate store

The queries by digest and by round answer as the plain map does.  Those by origin do so
exactly as long as every certificate that was written is stored.
-/

namespace Sui.Narwhal

open Library PlainStore Map
open List hiding after
open Std (ExtTreeMap)

/-- The entry of a certificate in the index by round. -/
def Certificate.roundEntry (certificate : Certificate) :
    (Nat × AuthorityIdentifier) × CertificateDigest :=
  ((certificate.round, certificate.origin), certificate.digest)

namespace CertificateStore

/-- Once the last round is known the walk keeps the rounds down to the one before it. -/
theorem lastTwoRoundsFrom_of_ne_zero {store : CertificateStore} {certificates : List Certificate}
    (stored : ∀ certificate ∈ certificates,
      store.certificatesById[certificate.digest]? = some certificate)
    (descending : certificates.Pairwise fun left right => right.round ≤ left.round) {round : Nat}
    (known : round ≠ 0) :
    store.lastTwoRoundsFrom round (certificates.map Certificate.roundEntry) =
      some (certificates.filter fun certificate => round ≤ certificate.round + 1) := by
  induction certificates with
  | nil => rfl
  | cons certificate certificates ih =>
    rw [pairwise_cons] at descending
    have others := ih (forall_mem_cons.mp stored).2 descending.2
    rw [map_cons, Certificate.roundEntry, lastTwoRoundsFrom, if_neg known, others,
      stored certificate mem_cons_self, filter_cons]
    by_cases low : certificate.round < round - 1
    · have dropped : ∀ other ∈ certificates, ¬ round ≤ other.round + 1 := by
        intro other later
        have below := descending.1 other later
        omega
      have first : ¬ round ≤ certificate.round + 1 := by omega
      simp [low, first]
      simpa using dropped
    · have first : round ≤ certificate.round + 1 := by omega
      simp [low, first]

/-- While the round is zero the walk keeps everything. -/
theorem lastTwoRoundsFrom_of_round_zero {store : CertificateStore} {certificates : List Certificate}
    (stored : ∀ certificate ∈ certificates,
      store.certificatesById[certificate.digest]? = some certificate)
    (zero : ∀ certificate ∈ certificates, certificate.round = 0) :
    store.lastTwoRoundsFrom 0 (certificates.map Certificate.roundEntry) = some certificates := by
  induction certificates with
  | nil => rfl
  | cons certificate certificates ih =>
    have others := ih (forall_mem_cons.mp stored).2
      (forall_mem_cons.mp zero).2
    rw [map_cons, Certificate.roundEntry, lastTwoRoundsFrom, if_pos rfl,
      zero certificate mem_cons_self, others, stored certificate mem_cons_self]
    rfl

/-- The walk from the highest round keeps the last two rounds. -/
theorem lastTwoRoundsFrom_zero {store : CertificateStore} {certificates : List Certificate}
    (stored : ∀ certificate ∈ certificates,
      store.certificatesById[certificate.digest]? = some certificate)
    (descending : certificates.Pairwise fun left right => right.round ≤ left.round)
    (first : ∀ certificate, certificates.head? = some certificate → certificate.round = highest) :
    store.lastTwoRoundsFrom 0 (certificates.map Certificate.roundEntry) =
      some (certificates.filter fun certificate => highest ≤ certificate.round + 1) := by
  cases certificates with
  | nil => rfl
  | cons certificate certificates =>
    obtain rfl := first certificate rfl
    by_cases unknown : certificate.round = 0
    · rw [lastTwoRoundsFrom_of_round_zero stored]
      · simp [unknown]
      · refine forall_mem_cons.mpr ⟨unknown, fun other later => ?_⟩
        have below := (pairwise_cons.mp descending).1 other later
        omega
    · rw [map_cons, Certificate.roundEntry, lastTwoRoundsFrom, if_pos rfl,
        stored certificate mem_cons_self, lastTwoRoundsFrom_of_ne_zero (forall_mem_cons.mp stored).2
          (pairwise_cons.mp descending).2 unknown]
      simp

end CertificateStore

namespace CachedStore
namespace Tracks

variable {world written : List Certificate} {store : CachedStore} {plain : PlainStore}

/-! ## The index by round -/

/-- The highest round is the one of the last certificate. -/
theorem round_getLast? (last : plain.certificates.getLast? = some certificate) :
    certificate.round = plain.highestRoundNumber := by
  obtain ⟨before, listing⟩ := getLast?_eq_some_iff.mp last
  have ordered := plain.certificates_ordered
  unfold PlainStore.highestRoundNumber
  rw [listing] at ordered ⊢
  have highest : ((before ++ [certificate]).map Certificate.round).max? =
      some certificate.round := by
    rw [max?_eq_some_iff]
    constructor
    · simp
    · intro round listed
      obtain ⟨other, isOther, rfl⟩ := mem_map.mp listed
      rcases mem_snoc.mp isOther with earlier | isLast
      · rcases (pairwise_append.mp ordered).2.2 other earlier certificate
          mem_cons_self with lower | same
        · exact lower.le
        · exact same.1.le
      · rw [isLast]
  rw [highest, Option.getD_some]

section

variable (tracks : Tracks world written store plain)

include tracks

theorem read_digest (stored : certificate ∈ plain.certificates) :
    plain.read certificate.digest = some certificate := by
  obtain ⟨digest, found⟩ := (plain.mem_certificates_iff certificate).mp stored
  rwa [(tracks.filed digest certificate found).1]

/-- No certificate is listed twice. -/
theorem nodup_certificates : plain.certificates.Nodup := by
  unfold certificates
  rw [(perm_insertionSort _ _).nodup_iff]
  apply List.Nodup.of_map Certificate.digest
  have keys : (values plain.byDigest).map Certificate.digest =
      plain.byDigest.toList.map Prod.fst := by
    rw [values, map_map]
    apply map_congr_left
    rintro ⟨digest, certificate⟩ listed
    exact (tracks.filed digest certificate (ExtTreeMap.mem_toList_iff_getElem?_eq_some.mp listed)).1
  rw [keys, ExtTreeMap.map_fst_toList_eq_keys]
  exact ExtTreeMap.nodup_keys

/-- Stored certificates are read from the tables. -/
theorem mapM_read {certificates : List Certificate}
    (stored : ∀ certificate ∈ certificates, certificate ∈ plain.certificates) :
    (certificates.map Certificate.digest).mapM store.tables.read = some certificates := by
  induction certificates with
  | nil => rfl
  | cons certificate certificates ih =>
    rw [map_cons, mapM_cons, tracks.read_tables,
      tracks.read_digest (stored certificate mem_cons_self),
      ih (forall_mem_cons.mp stored).2]
    rfl

variable (nonEquivocating : NonEquivocating world)

include nonEquivocating

/-- An origin has one certificate in a round. -/
theorem eq_of_position (leftStored : left ∈ plain.certificates)
    (rightStored : right ∈ plain.certificates) (sameOrigin : left.origin = right.origin)
    (sameRound : left.round = right.round) :
    left = right := by
  obtain ⟨leftDigest, leftFound⟩ := (plain.mem_certificates_iff left).mp leftStored
  obtain ⟨rightDigest, rightFound⟩ := (plain.mem_certificates_iff right).mp rightStored
  obtain ⟨rfl, leftWritten⟩ := tracks.filed leftDigest left leftFound
  obtain ⟨rfl, rightWritten⟩ := tracks.filed rightDigest right rightFound
  have same := (nonEquivocating.determined left (tracks.within left leftWritten) right
    (tracks.within right rightWritten)).mp ⟨sameOrigin, sameRound⟩
  rw [same, rightFound] at leftFound
  exact (Option.some.inj leftFound).symm

/-- The index by round lists the stored certificates in their order. -/
theorem toList_byRound :
    store.tables.certificateIdByRound.toList = plain.certificates.map Certificate.roundEntry := by
  have ordered : (plain.certificates.map Certificate.roundEntry).Pairwise
      fun left right => compare left.1 right.1 = .lt := by
    rw [pairwise_map]
    apply (plain.certificates_ordered.and tracks.nodup_certificates).imp_of_mem
    rintro left right leftStored rightStored ⟨before, different⟩
    rw [compare_eq_lt_iff]
    rcases before with lower | ⟨sameRound, below⟩
    · exact .inl lower
    · refine .inr ⟨sameRound, lt_of_le_of_ne below fun sameOrigin => different ?_⟩
      exact tracks.eq_of_position nonEquivocating leftStored rightStored sameOrigin sameRound
  apply List.Perm.eq_of_pairwise _ ExtTreeMap.ordered_keys_toList ordered
  · rw [perm_ext_iff_of_nodup]
    · rintro ⟨⟨round, origin⟩, digest⟩
      rw [ExtTreeMap.mem_toList_iff_getElem?_eq_some, tracks.byRound]
      simp only [mem_map, Certificate.roundEntry, Prod.mk.injEq]
      constructor
      · rintro ⟨certificate, found, isRound, isOrigin⟩
        exact ⟨certificate, (plain.mem_certificates_iff _).mpr ⟨digest, found⟩,
          ⟨isRound, isOrigin⟩, (tracks.filed digest certificate found).1⟩
      · rintro ⟨certificate, stored, ⟨isRound, isOrigin⟩, rfl⟩
        exact ⟨certificate, tracks.read_digest stored, isRound, isOrigin⟩
    · exact ExtTreeMap.ordered_keys_toList.imp fun below same => by simp [same] at below
    · exact ordered.imp fun below same => by simp [same] at below
  · exact fun left right _ _ below above => absurd above (compare_asymmetric below)

theorem afterRound (round : Nat) : store.afterRound round = some (plain.afterRound round) := by
  unfold CachedStore.afterRound CertificateStore.afterRound PlainStore.afterRound
  rw [tracks.toList_byRound nonEquivocating, filter_map, map_map]
  apply tracks.mapM_read
  exact fun certificate listed => mem_of_mem_filter listed

theorem highestRoundNumber : store.highestRoundNumber = plain.highestRoundNumber := by
  unfold CachedStore.highestRoundNumber
  rw [tracks.toList_byRound nonEquivocating, getLast?_map]
  cases last : plain.certificates.getLast? with
  | some certificate => exact round_getLast? last
  | none =>
    rw [getLast?_eq_none_iff] at last
    simp [PlainStore.highestRoundNumber, last]

/-- The certificates of the last two rounds agree. -/
theorem lastTwoRoundsCerts : store.lastTwoRoundsCerts = some plain.lastTwoRoundsCerts := by
  unfold CachedStore.lastTwoRoundsCerts PlainStore.lastTwoRoundsCerts
  rw [tracks.toList_byRound nonEquivocating, ← map_reverse]
  apply CertificateStore.lastTwoRoundsFrom_zero
  · intro certificate listed
    have found := tracks.read_digest (mem_reverse.mp listed)
    rwa [← tracks.read_tables] at found
  · rw [pairwise_reverse]
    apply plain.certificates_ordered.imp
    rintro left right (lower | same)
    · exact lower.le
    · exact same.1.le
  · intro certificate first
    rw [head?_reverse] at first
    exact round_getLast? first

/-! ## The index by origin -/

/-- What the plain map answers by origin and round. -/
theorem plain_readByIndex_eq_some_iff {round : Nat} {certificate : Certificate} :
    plain.readByIndex origin round = some certificate ↔
      certificate ∈ plain.certificates ∧ certificate.origin = origin ∧
        certificate.round = round := by
  unfold PlainStore.readByIndex
  constructor
  · intro found
    have stored := mem_of_find?_eq_some found
    have isRound := find?_some found
    simp only [ofOrigin, mem_filter, decide_eq_true_eq] at stored isRound
    exact ⟨stored.1, stored.2, isRound⟩
  · rintro ⟨stored, isOrigin, isRound⟩
    cases found : (plain.ofOrigin origin).find? fun other => decide (other.round = round) with
    | none =>
      have absent := find?_eq_none.mp found certificate
        (mem_filter.mpr ⟨stored, decide_eq_true isOrigin⟩)
      simp [isRound] at absent
    | some other =>
      have otherStored := mem_of_find?_eq_some found
      have otherRound := find?_some found
      simp only [ofOrigin, mem_filter, decide_eq_true_eq] at otherStored otherRound
      rw [tracks.eq_of_position nonEquivocating otherStored.1 stored
        (otherStored.2.trans isOrigin.symm) (otherRound.trans isRound.symm)]

/-- An entry that a deletion left behind is harmless here: its digest is not stored. -/
theorem readByIndex_snd (origin : AuthorityIdentifier) (round : Nat) :
    (store.readByIndex origin round).2 = plain.readByIndex origin round := by
  ext certificate
  rw [tracks.plain_readByIndex_eq_some_iff nonEquivocating]
  unfold CachedStore.readByIndex
  split
  · next digest entry =>
    obtain ⟨indexed, isWritten, rfl, rfl, rfl⟩ := (tracks.byOrigin origin round digest).mp entry
    rw [tracks.read_snd]
    constructor
    · intro found
      obtain ⟨isDigest, isWritten'⟩ := tracks.filed _ certificate found
      have same := (nonEquivocating.determined certificate (tracks.within _ isWritten') indexed
        (tracks.within _ isWritten)).mpr isDigest
      exact ⟨(plain.mem_certificates_iff _).mpr ⟨_, found⟩, same.1, same.2⟩
    · rintro ⟨stored, isOrigin, isRound⟩
      have found := tracks.read_digest stored
      have isWritten' := (tracks.filed _ certificate found).2
      rwa [(nonEquivocating.determined certificate (tracks.within _ isWritten') indexed
        (tracks.within _ isWritten)).mp ⟨isOrigin, isRound⟩] at found
  · next absent =>
    simp only [reduceCtorEq, false_iff]
    rintro ⟨stored, isOrigin, isRound⟩
    have found := tracks.read_digest stored
    have entry := (tracks.byOrigin origin round certificate.digest).mpr
      ⟨certificate, (tracks.filed _ certificate found).2, rfl, isRound, isOrigin⟩
    rw [absent] at entry
    cases entry

end

end Tracks

/-- The index by origin lists the stored certificates. -/
def OriginView (store : CachedStore) : Prop :=
  ∀ (origin : AuthorityIdentifier) (round : Nat) (digest : CertificateDigest),
    store.tables.certificateIdByOrigin[(origin, round)]? = some digest ↔
      ∃ certificate : Certificate, store.tables.certificatesById[digest]? = some certificate ∧
        certificate.round = round ∧ certificate.origin = origin

/-- The index by round lists the stored certificates. -/
def RoundView (store : CachedStore) : Prop :=
  ∀ (round : Nat) (origin : AuthorityIdentifier) (digest : CertificateDigest),
    store.tables.certificateIdByRound[(round, origin)]? = some digest ↔
      ∃ certificate : Certificate, store.tables.certificatesById[digest]? = some certificate ∧
        certificate.round = round ∧ certificate.origin = origin

theorem compare_origin_le (left right : Nat × Nat) :
    compare left right ≠ .gt ↔
      left.1 < right.1 ∨ left.1 = right.1 ∧ left.2 ≤ right.2 := by
  rw [ne_eq, Std.OrientedCmp.gt_iff_lt, compare_eq_lt_iff]
  omega

/-- The last entry of an origin is the highest one. -/
theorem lastEntry_eq_some_iff {store : CachedStore}
    (bounded : ∀ (origin : AuthorityIdentifier) (round : Nat) (digest : CertificateDigest),
      store.tables.certificateIdByOrigin[(origin, round)]? = some digest → round ≤ roundMax)
    {round : Nat} {digest : CertificateDigest} :
    store.lastEntry origin = some (round, digest) ↔
      store.tables.certificateIdByOrigin[(origin, round)]? = some digest ∧
        ∀ other digest', store.tables.certificateIdByOrigin[(origin, other)]? = some digest' →
          other ≤ round := by
  have entryIff : store.lastEntry origin = some (round, digest) ↔
      skipPriorTo store.tables.certificateIdByOrigin (origin, roundMax) =
        some ((origin, round), digest) := by
    unfold lastEntry
    split
    · next name round' digest' found =>
      rw [found]
      by_cases isOrigin : name = origin
      · simp [isOrigin]
      · simp [isOrigin]
    · next found => simp [found]
  rw [entryIff, skipPriorTo_eq_some_iff]
  refine and_congr_right fun entry => ?_
  constructor
  · rintro ⟨_, highest⟩ other digest' entry'
    have notAbove := (compare_origin_le (origin, other) (origin, roundMax)).mpr
      (.inr ⟨rfl, bounded origin other digest' entry'⟩)
    rcases highest (origin, other) digest' entry' notAbove with same | below
    · exact (congrArg Prod.snd same).le
    · rcases (compare_eq_lt_iff _ _).mp below with lower | ⟨_, lower⟩
      · exact absurd lower (Nat.lt_irrefl _)
      · exact lower.le
  · intro highest
    refine ⟨(compare_origin_le _ _).mpr (.inr ⟨rfl, bounded origin round digest entry⟩), ?_⟩
    rintro ⟨origin', other⟩ digest' entry' notAbove
    rcases (compare_origin_le _ _).mp notAbove with lower | ⟨same, _⟩
    · exact .inr ((compare_eq_lt_iff _ _).mpr (.inl lower))
    · obtain rfl : origin' = origin := same
      rcases (highest other digest' entry').lt_or_eq with lower | rfl
      · exact .inr ((compare_eq_lt_iff _ _).mpr (.inr ⟨rfl, lower⟩))
      · exact .inl rfl

/-- The next entry of an origin is the one with the lowest round above. -/
theorem nextRoundNumber_eq_some_iff {store : CachedStore} {round next : Nat}
    (below : round < roundMax) :
    store.nextRoundNumber origin round = some next ↔
      (∃ digest, store.tables.certificateIdByOrigin[(origin, next)]? = some digest) ∧ round < next ∧
        ∀ other digest, store.tables.certificateIdByOrigin[(origin, other)]? = some digest →
          round < other → next ≤ other := by
  have successor : (round + 1) % 2 ^ 64 = round + 1 := by
    unfold roundMax at below
    omega
  have entryIff : store.nextRoundNumber origin round = some next ↔
      ∃ digest, (skipTo store.tables.certificateIdByOrigin
        (origin, round + 1)).head? = some ((origin, next), digest) := by
    unfold nextRoundNumber
    rw [successor]
    split
    · next name round' digest' found =>
      rw [found]
      by_cases isOrigin : name = origin
      · simp [isOrigin]
      · simp [isOrigin]
    · next found => simp [found]
  rw [entryIff]
  simp only [head?_skipTo_eq_some_iff, ne_eq, compare_eq_lt_iff]
  constructor
  · rintro ⟨digest, entry, notBelow, lowest⟩
    refine ⟨⟨digest, entry⟩, by simp at notBelow; omega, ?_⟩
    intro other digest' entry' above
    rcases lowest (origin, other) digest' entry' (by simp; omega) with same | lower
    · exact (congrArg Prod.snd same).ge
    · simp at lower
      omega
  · rintro ⟨⟨digest, entry⟩, above, lowest⟩
    refine ⟨digest, entry, by simp; omega, ?_⟩
    rintro ⟨origin', other⟩ digest' entry' notBelow
    by_cases same : origin' = origin
    · subst same
      have atLeast := lowest other digest' entry' (by simp at notBelow; omega)
      simp
      omega
    · have higher : origin < origin' := by
        rcases Nat.lt_trichotomy origin origin' with lower | isSame | higher
        · exact lower
        · exact absurd isSame.symm same
        · exact absurd (.inl higher) notBelow
      exact .inr (.inl higher)

/-- The answers by digest and by round, and those from the cache. -/
structure AnswersByRound (store : CachedStore) (plain : PlainStore) : Prop where
  read : ∀ digest, (store.read digest).2 = plain.read digest
  contains : ∀ digest, store.contains digest = plain.contains digest
  readByIndex : ∀ origin round, (store.readByIndex origin round).2 = plain.readByIndex origin round
  afterRound : ∀ round, store.afterRound round = some (plain.afterRound round)
  lastTwoRoundsCerts : store.lastTwoRoundsCerts = some plain.lastTwoRoundsCerts
  highestRoundNumber : store.highestRoundNumber = plain.highestRoundNumber
  cached : ∀ digest certificate, store.cache.peek digest = some certificate →
    plain.read digest = some certificate

/-- The answers that search the index by origin. -/
structure AnswersByOrigin (store : CachedStore) (plain : PlainStore) : Prop where
  lastRound : ∀ origin, (store.lastRound origin).2 = plain.lastRound origin
  lastRoundNumber : ∀ origin, store.lastRoundNumber origin = plain.lastRoundNumber origin
  nextRoundNumber : ∀ origin round, round < roundMax →
    store.nextRoundNumber origin round = plain.nextRoundNumber origin round

namespace Tracks

variable {world written : List Certificate} {store : CachedStore} {plain : PlainStore}

variable (tracks : Tracks world written store plain)

include tracks

theorem roundView : store.RoundView := by
  intro round origin digest
  rw [tracks.byRound, tracks.byDigest]
  rfl

/-- Both contain the same digests. -/
theorem contains (digest : CertificateDigest) : store.contains digest = plain.contains digest := by
  unfold CachedStore.contains CertificateStoreCache.contains CertificateStore.contains
    PlainStore.contains
  rw [ExtTreeMap.contains_eq_isSome_getElem?]
  have stored := tracks.read_tables digest
  unfold CertificateStore.read at stored
  rw [stored]
  cases found : store.cache.peek digest with
  | none => simp
  | some certificate => simp [tracks.cached digest certificate found]

/-- What the index by origin lists for an origin, if it shows the stored certificates. -/
theorem entry_iff_of_originView
    (view : store.OriginView) (origin : AuthorityIdentifier) (round : Nat)
    (digest : CertificateDigest) :
    store.tables.certificateIdByOrigin[(origin, round)]? = some digest ↔
      ∃ certificate ∈ plain.ofOrigin origin, certificate.round = round ∧
        certificate.digest = digest := by
  rw [view, tracks.byDigest]
  simp only [mem_ofOrigin_iff]
  constructor
  · rintro ⟨certificate, found, isRound, isOrigin⟩
    exact ⟨certificate, ⟨⟨digest, found⟩, isOrigin⟩, isRound,
      (tracks.filed digest certificate found).1⟩
  · rintro ⟨certificate, ⟨⟨digest', found⟩, isOrigin⟩, isRound, rfl⟩
    rw [← (tracks.filed digest' certificate found).1] at found
    exact ⟨certificate, found, isRound, isOrigin⟩

/-- The next round of an origin agrees below the largest round. -/
theorem nextRoundNumber (view : store.OriginView)
    (origin : AuthorityIdentifier) {round : Nat} (below : round < roundMax) :
    store.nextRoundNumber origin round = plain.nextRoundNumber origin round := by
  ext next
  rw [nextRoundNumber_eq_some_iff below]
  simp only [tracks.entry_iff_of_originView view, PlainStore.nextRoundNumber,
    min?_eq_some_iff, mem_filter, mem_map, decide_eq_true_eq]
  constructor
  · rintro ⟨⟨_, certificate, stored, isRound, _⟩, above, lowest⟩
    refine ⟨⟨⟨certificate, stored, isRound⟩, above⟩, ?_⟩
    rintro other ⟨⟨certificate', stored', isRound'⟩, above'⟩
    exact lowest other _ ⟨certificate', stored', isRound', rfl⟩ above'
  · rintro ⟨⟨⟨certificate, stored, isRound⟩, above⟩, lowest⟩
    refine ⟨⟨_, certificate, stored, isRound, rfl⟩, above, ?_⟩
    rintro other _ ⟨certificate', stored', isRound', _⟩ above'
    exact lowest other ⟨⟨certificate', stored', isRound'⟩, above'⟩

variable (nonEquivocating : NonEquivocating world)

include nonEquivocating

theorem answersByRound :
    store.AnswersByRound plain where
  read := tracks.read_snd
  contains := tracks.contains
  readByIndex := tracks.readByIndex_snd nonEquivocating
  afterRound := tracks.afterRound nonEquivocating
  lastTwoRoundsCerts := tracks.lastTwoRoundsCerts nonEquivocating
  highestRoundNumber := tracks.highestRoundNumber nonEquivocating
  cached := tracks.cached

/-- The index by origin shows the stored certificates if nothing that was written is
missing. -/
theorem originView_iff :
    store.OriginView ↔ ∀ certificate ∈ written, plain.contains certificate.digest = true := by
  unfold CachedStore.OriginView PlainStore.contains
  simp only [tracks.byOrigin, tracks.byDigest]
  constructor
  · intro view certificate isWritten
    obtain ⟨_, found, _⟩ := (view certificate.origin certificate.round certificate.digest).mp
      ⟨certificate, isWritten, rfl, rfl, rfl⟩
    exact Option.isSome_of_eq_some found
  · intro allStored origin round digest
    constructor
    · rintro ⟨certificate, isWritten, rfl, rfl, rfl⟩
      obtain ⟨stored, found⟩ := Option.isSome_iff_exists.mp (allStored certificate isWritten)
      obtain ⟨isDigest, isWritten'⟩ := tracks.filed _ stored found
      have same := (nonEquivocating.determined stored (tracks.within _ isWritten') certificate
        (tracks.within _ isWritten)).mpr isDigest
      exact ⟨stored, found, same.2, same.1⟩
    · rintro ⟨certificate, found, isRound, isOrigin⟩
      obtain ⟨isDigest, isWritten⟩ := tracks.filed digest certificate found
      exact ⟨certificate, isWritten, isDigest, isRound, isOrigin⟩

/-- The last entry of an origin is its last certificate. -/
theorem lastEntry (view : store.OriginView) {round : Nat}
    {digest : CertificateDigest} :
    store.lastEntry origin = some (round, digest) ↔ plain.lastRoundNumber origin = some round ∧
        ∃ certificate ∈ plain.ofOrigin origin, certificate.round = round ∧
          certificate.digest = digest := by
  rw [lastEntry_eq_some_iff]
  · simp only [tracks.entry_iff_of_originView view, PlainStore.lastRoundNumber,
      max?_eq_some_iff, mem_map]
    constructor
    · rintro ⟨⟨certificate, stored, isRound, isDigest⟩, highest⟩
      refine ⟨⟨⟨certificate, stored, isRound⟩, ?_⟩, certificate, stored, isRound, isDigest⟩
      rintro other ⟨certificate', stored', isRound'⟩
      exact highest other _ ⟨certificate', stored', isRound', rfl⟩
    · rintro ⟨⟨_, highest⟩, entry⟩
      refine ⟨entry, ?_⟩
      rintro other _ ⟨certificate', stored', isRound', _⟩
      exact highest other ⟨certificate', stored', isRound'⟩
  · intro origin' round' digest' entry
    obtain ⟨certificate, isWritten, _, rfl, _⟩ := (tracks.byOrigin _ _ _).mp entry
    exact nonEquivocating.bounded certificate (tracks.within certificate isWritten)

/-- The last round number agrees. -/
theorem lastRoundNumber (view : store.OriginView)
    (origin : AuthorityIdentifier) :
    store.lastRoundNumber origin = plain.lastRoundNumber origin := by
  ext round
  simp only [CachedStore.lastRoundNumber, Option.map_eq_some_iff, Prod.exists,
    exists_and_right, exists_eq_right, tracks.lastEntry nonEquivocating view]
  constructor
  · rintro ⟨_, highest, _⟩
    exact highest
  · intro highest
    obtain ⟨certificate, stored, isRound⟩ := mem_map.mp (max?_eq_some_iff.mp highest).1
    exact ⟨certificate.digest, highest, certificate, stored, isRound, rfl⟩

/-- The certificate of the last round agrees. -/
theorem lastRound_snd (view : store.OriginView)
    (origin : AuthorityIdentifier) :
    (store.lastRound origin).2 = plain.lastRound origin := by
  unfold CachedStore.lastRound PlainStore.lastRound
  split
  · next round digest entry =>
    obtain ⟨highest, certificate, stored, isRound, rfl⟩ :=
      (tracks.lastEntry nonEquivocating view).mp entry
    have ⟨listed, isOrigin⟩ := mem_filter.mp stored
    rw [tracks.read_snd, tracks.read_digest listed, highest, Option.bind_some, eq_comm,
      tracks.plain_readByIndex_eq_some_iff nonEquivocating]
    exact ⟨listed, of_decide_eq_true isOrigin, isRound⟩
  · next absent =>
    have none : plain.lastRoundNumber origin = none := by
      rw [← tracks.lastRoundNumber nonEquivocating view, CachedStore.lastRoundNumber, absent,
        Option.map_none]
    rw [none, Option.bind_none]

theorem answersByOrigin (view : store.OriginView) :
    store.AnswersByOrigin plain where
  lastRound := tracks.lastRound_snd nonEquivocating view
  lastRoundNumber := tracks.lastRoundNumber nonEquivocating view
  nextRoundNumber origin _ below := tracks.nextRoundNumber view origin below

end Tracks

/-- After every run of calls over certificates of which none equivocates, the table by
digest and the index by round agree, and the cache and the queries by digest and by round
answer as the plain map does.  The index by origin agrees too, and the queries by origin
are answered as the plain map answers them, exactly if every certificate that the run
wrote is stored at its end. -/
theorem views_agree_iff_all_stored (capacity : Nat) (actions : List Action)
    (nonEquivocating : NonEquivocating (written actions)) :
    (run capacity actions).RoundView ∧
      (run capacity actions).AnswersByRound (PlainStore.run actions) ∧
      ((run capacity actions).OriginView ∧
          (run capacity actions).AnswersByOrigin (PlainStore.run actions) ↔
        ∀ certificate ∈ written actions,
          (PlainStore.run actions).contains certificate.digest = true) := by
  have tracks := tracks_run capacity nonEquivocating
  refine ⟨tracks.roundView, tracks.answersByRound nonEquivocating, ?_⟩
  rw [← tracks.originView_iff nonEquivocating]
  constructor
  · exact And.left
  · exact fun view => ⟨view, tracks.answersByOrigin nonEquivocating view⟩

section Example

/-- A certificate of the first authority without payload. -/
def exampleCertificate (round digest : Nat) : Certificate where
  header := ⟨0, round, 0, 0, [], [], digest, Header.sorted_nil⟩
  signedAuthorities := []
  aggregatedSignature := 0

/-- The certificates of two rounds are written, one is deleted and written again. -/
def exampleRewrite : List Action :=
  [.write (exampleCertificate 1 10), .writeAll [exampleCertificate 2 20], .delete 20,
    .write (exampleCertificate 2 20)]

/-- A deletion does no harm if the certificate is written again. -/
theorem views_agree_two_rounds :
    (PlainStore.run exampleRewrite).lastRound 0 = some (exampleCertificate 2 20) ∧
      (run 1 exampleRewrite).OriginView ∧
      (run 1 exampleRewrite).AnswersByOrigin (PlainStore.run exampleRewrite) := by
  refine ⟨by decide +kernel, (views_agree_iff_all_stored 1 exampleRewrite ⟨?_, ?_⟩).2.2.mpr ?_⟩
  · decide +kernel
  · decide +kernel
  · decide +kernel

/-- A deletion leaves its certificate in the index by origin.  The last round of the
authority is then a round without certificate, its last certificate is lost although one
is stored, and the next round is wrong.  The successor of the largest round wraps around to
the first one. -/
theorem deleted_certificate_indexed :
    ¬ (run 1 [.write (exampleCertificate 1 10), .write (exampleCertificate 2 20),
        .delete 20]).OriginView ∧
      (let actions := [.write (exampleCertificate 1 10), .write (exampleCertificate 2 20),
        .delete 20]
      (run 1 actions).lastRoundNumber 0 = some 2 ∧
        (PlainStore.run actions).lastRoundNumber 0 = some 1 ∧
        ((run 1 actions).lastRound 0).2 = none ∧
        (PlainStore.run actions).lastRound 0 = some (exampleCertificate 1 10) ∧
        (run 1 actions).nextRoundNumber 0 1 = some 2 ∧
        (PlainStore.run actions).nextRoundNumber 0 1 = none) ∧
      (run 1 [.write (exampleCertificate 1 10)]).nextRoundNumber 0 roundMax = some 1 ∧
      (PlainStore.run [.write (exampleCertificate 1 10)]).nextRoundNumber 0 roundMax = none := by
  refine ⟨?_, by decide +kernel, by decide +kernel, by decide +kernel⟩
  intro view
  obtain ⟨certificate, found, _⟩ := (view 0 2 20).mp (by decide +kernel)
  have absent : (run 1 [.write (exampleCertificate 1 10), .write (exampleCertificate 2 20),
      .delete 20]).tables.certificatesById[20]? = none := by decide +kernel
  cases found

end Example

end CachedStore

end Sui.Narwhal
