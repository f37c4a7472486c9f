import Sui.System.Move

/-!
# The keys of the identity providers

The list of the keys that identity providers sign with.  Validators add the keys that a
quorum has seen, with the epoch, and the end of an epoch expires the keys that were not
seen lately, unless their issuer would be left without one.

Expiry relies on the keys of an issuer standing next to each other: it collects the last
epoch of every issuer in one pass, and counts the issuers in another one to find it again.
-/

namespace Sui.Framework

open Library Sui.System
open List hiding after

/-- The identity of a key: its issuer, and the name that the issuer gave it. -/
structure JwkId where
  iss : Bytes
  kid : Bytes
  deriving DecidableEq

/-- A key. -/
structure Jwk where
  kty : Bytes
  e : Bytes
  n : Bytes
  alg : Bytes
  deriving DecidableEq

/-- A key with the epoch in which it was last seen. -/
structure ActiveJwk where
  jwkId : JwkId
  jwk : Jwk
  epoch : Nat
  deriving DecidableEq

/-- Compare strings, shorter ones first and those of one length by their bytes. -/
def stringBytesLt (left right : Bytes) : Bool :=
  if left.length < right.length then true
  else if right.length < left.length then false
  else left.map UInt8.toNat < right.map UInt8.toNat

namespace ActiveJwk

/-- Compare everything but the epochs. -/
def jwkLt (left right : ActiveJwk) : Bool :=
  if left.jwkId.iss ≠ right.jwkId.iss then stringBytesLt left.jwkId.iss right.jwkId.iss
  else if left.jwkId.kid ≠ right.jwkId.kid then stringBytesLt left.jwkId.kid right.jwkId.kid
  else if left.jwk.kty ≠ right.jwk.kty then stringBytesLt left.jwk.kty right.jwk.kty
  else if left.jwk.e ≠ right.jwk.e then stringBytesLt left.jwk.e right.jwk.e
  else if left.jwk.n ≠ right.jwk.n then stringBytesLt left.jwk.n right.jwk.n
  else stringBytesLt left.jwk.alg right.jwk.alg

/-- Check that keys are sorted.  The bound of the loop underflows if there are none. -/
def checkSorted : List ActiveJwk → Program Unit
  | [] => .error .arithmetic
  | [_] => .ok ()
  | left :: right :: jwks => do
    require (left.jwkLt right = true) (.authenticatorState 2)
    checkSorted (right :: jwks)

/-- Skip the keys that have the identity of the key before them. -/
def deduplicate : Option JwkId → List ActiveJwk → List ActiveJwk
  | _, [] => []
  | previous, jwk :: jwks =>
    if previous = some jwk.jwkId then deduplicate previous jwks
    else jwk :: deduplicate (some jwk.jwkId) jwks

/-- Merge new keys into the active ones.  A key that is known gets the later epoch; a new
key under the identity of another one is ignored. -/
def merge : List ActiveJwk → List ActiveJwk → List ActiveJwk
  | old :: olds, new :: news =>
    if old.jwk = new.jwk ∧ old.jwkId = new.jwkId then
      { old with epoch := max old.epoch new.epoch } :: merge olds news
    else if old.jwkId = new.jwkId then old :: merge olds news
    else if old.jwkLt new then old :: merge olds (new :: news)
    else new :: merge (old :: olds) news
  | olds, [] => olds
  | [], news => news
termination_by olds news => olds.length + news.length

/-- The element of a vector at an index. -/
def borrow (items : List α) (index : Nat) : Program α :=
  match items[index]? with
  | some item => .ok item
  | none => .error .indexOutOfBounds

/-- The first pass of expiry: the last epoch of every issuer, in the order of the keys. -/
def issuerMaxEpochs : List ActiveJwk → Option Bytes → List Nat → Program (List Nat)
  | [], _, maxEpochs => .ok maxEpochs
  | cur :: jwks, prevIssuer, maxEpochs =>
    if prevIssuer = some cur.jwkId.iss then do
      let back ← U64.sub maxEpochs.length 1
      let prevMaxEpoch ← borrow maxEpochs back
      issuerMaxEpochs jwks prevIssuer (maxEpochs.set back (max prevMaxEpoch cur.epoch))
    else
      issuerMaxEpochs jwks (some cur.jwkId.iss) (maxEpochs ++ [cur.epoch])

/-- The second pass of expiry: the keys to keep, with the position of their issuer. -/
def retain (minEpoch : Nat) (maxEpochs : List Nat) :
    List ActiveJwk → Option Bytes → Nat → Program (List ActiveJwk)
  | [], _, _ => .ok []
  | jwk :: jwks, prevIssuer, position => do
    let position :=
      if prevIssuer = none ∨ prevIssuer = some jwk.jwkId.iss then position else position + 1
    let maxEpoch ← borrow maxEpochs position
    let kept ← retain minEpoch maxEpochs jwks (some jwk.jwkId.iss) position
    .ok (if maxEpoch < minEpoch ∨ minEpoch ≤ jwk.epoch then jwk :: kept else kept)

end ActiveJwk

/-- The shared object with the active keys.  The keys are in a dynamic field, which has a
version as well. -/
structure AuthenticatorState where
  version : Nat
  innerVersion : Nat
  activeJwks : List ActiveJwk
  deriving DecidableEq

namespace AuthenticatorState

/-- Only the system calls the functions of the object. -/
def requireSystem (sender : Address) : Program Unit :=
  require (sender = 0) (.authenticatorState 0)

/-- The object as it is first shared. -/
def create (sender : Address) : Program AuthenticatorState := do
  requireSystem sender
  .ok ⟨1, 1, []⟩

/-- The active keys, if the versions are right. -/
def loadInner (self : AuthenticatorState) : Program (List ActiveJwk) := do
  require (self.version = 1) (.authenticatorState 1)
  require (self.innerVersion = self.version) (.authenticatorState 1)
  .ok self.activeJwks

/-- Record keys that have been seen. -/
def updateAuthenticatorState (self : AuthenticatorState) (newActiveJwks : List ActiveJwk)
    (sender : Address) : Program AuthenticatorState := do
  requireSystem sender
  ActiveJwk.checkSorted newActiveJwks
  let activeJwks ← self.loadInner
  .ok { self with
    activeJwks := ActiveJwk.merge activeJwks (ActiveJwk.deduplicate none newActiveJwks) }

/-- Remove the keys that were not seen since an epoch. -/
def expireJwks (self : AuthenticatorState) (minEpoch : Nat) (sender : Address) :
    Program AuthenticatorState := do
  requireSystem sender
  let activeJwks ← self.loadInner
  let maxEpochs ← ActiveJwk.issuerMaxEpochs activeJwks none []
  let kept ← ActiveJwk.retain minEpoch maxEpochs activeJwks none 0
  .ok { self with activeJwks := kept }

/-- What the calls of the system lead to. -/
inductive Reachable : AuthenticatorState → Prop
  | create : create sender = .ok state → Reachable state
  | update : Reachable state → state.updateAuthenticatorState jwks sender = .ok after →
      Reachable after
  | expire : Reachable state → state.expireJwks minEpoch sender = .ok after → Reachable after

end AuthenticatorState

/-! ## The order of the issuers -/

/-- The place of a string in the order that compares them. -/
def rank (text : Bytes) : Nat ×ₗ List Nat :=
  toLex (text.length, text.map UInt8.toNat)

theorem rank_injective : Function.Injective rank := by
  intro left right same
  have texts := congrArg Prod.snd (toLex.injective same)
  exact map_injective_iff.mpr (fun _ _ => UInt8.toNat.inj) texts

theorem stringBytesLt_iff : stringBytesLt left right = true ↔ rank left < rank right := by
  rw [rank, rank, Prod.Lex.toLex_lt_toLex, stringBytesLt]
  split
  · next less => simp [less]
  · next notLess =>
    split
    · next more => simp [notLess, more.ne']
    · next notMore => simp [Nat.le_antisymm (not_lt.mp notMore) (not_lt.mp notLess)]

namespace ActiveJwk

variable {jwks : List ActiveJwk}

/-- Issuers in their order, so that the keys of an issuer stand next to each other. -/
def Grouped (jwks : List ActiveJwk) : Prop :=
  jwks.Pairwise fun left right => rank left.jwkId.iss ≤ rank right.jwkId.iss

theorem rank_le_of_jwkLt {left right : ActiveJwk} (less : left.jwkLt right = true) :
    rank left.jwkId.iss ≤ rank right.jwkId.iss := by
  unfold jwkLt at less
  split at less
  · exact (stringBytesLt_iff.mp less).le
  · next same => rw [not_not.mp same]

theorem rank_le_of_not_jwkLt {left right : ActiveJwk} (notLess : ¬left.jwkLt right = true) :
    rank right.jwkId.iss ≤ rank left.jwkId.iss := by
  unfold jwkLt at notLess
  split at notLess
  · exact not_lt.mp (notLess ∘ stringBytesLt_iff.mpr)
  · next same => rw [not_not.mp same]

/-- Keys that pass the check are grouped by their issuers. -/
theorem grouped_of_checkSorted (checked : checkSorted jwks = .ok result) : Grouped jwks := by
  rw [Grouped, ← pairwise_map (R := (· ≤ ·)), ← isChain_iff_pairwise, isChain_map]
  induction jwks using checkSorted.induct with
  | case1 => exact .nil
  | case2 => exact .singleton _
  | case3 left right jwks ih =>
    obtain ⟨_, less, rest⟩ := bind_eq_ok.mp checked
    exact .cons_cons (rank_le_of_jwkLt (require_eq_ok.mp less)) (ih rest)

theorem deduplicate_sublist (previous : Option JwkId) (jwks : List ActiveJwk) :
    (deduplicate previous jwks).Sublist jwks := by
  induction jwks generalizing previous with
  | nil => exact .slnil
  | cons jwk jwks ih =>
    unfold deduplicate
    split
    · exact (ih _).cons _
    · exact (ih _).cons_cons _

/-- Every merged key has the issuer of a key of one of the lists. -/
theorem exists_of_mem_merge {merged : ActiveJwk} (listed : merged ∈ merge olds news) :
    ∃ source, (source ∈ olds ∨ source ∈ news) ∧ source.jwkId.iss = merged.jwkId.iss := by
  fun_induction merge olds news with
  | case1 old olds new news same ih => grind
  | case2 old olds new news _ same ih => grind
  | case3 old olds new news _ _ less ih => grind
  | case4 old olds new news _ _ notLess ih => grind
  | case5 olds => exact ⟨merged, .inl listed, rfl⟩
  | case6 news => exact ⟨merged, .inr listed, rfl⟩

/-- Merging keeps the keys grouped. -/
theorem grouped_merge (oldGrouped : Grouped olds) (newGrouped : Grouped news) :
    Grouped (merge olds news) := by
  unfold Grouped at *
  -- The first merged key comes before the heads of both lists, so before all that follow.
  fun_induction merge olds news with
  | case1 old olds new news same ih => grind [pairwise_cons, exists_of_mem_merge]
  | case2 old olds new news _ same ih => grind [pairwise_cons, exists_of_mem_merge]
  | case3 old olds new news _ _ less ih =>
    grind [pairwise_cons, exists_of_mem_merge, rank_le_of_jwkLt, le_trans]
  | case4 old olds new news _ _ notLess ih =>
    grind [pairwise_cons, exists_of_mem_merge, rank_le_of_not_jwkLt, le_trans]
  | case5 olds => exact oldGrouped
  | case6 news => exact newGrouped

/-! ## The two passes of expiry -/

/-- Filtering a list with a known head. -/
theorem filter_cons_of {keeps keeps' : α → Prop} [DecidablePred keeps] [DecidablePred keeps']
    [Decidable kept] (head : kept ↔ keeps' item)
    (tail : ∀ other ∈ items, keeps other ↔ keeps' other) :
    (if kept then item :: items.filter (keeps ·) else items.filter (keeps ·)) =
      (item :: items).filter (keeps' ·) := by
  have others : items.filter (keeps ·) = items.filter (keeps' ·) :=
    filter_congr fun other listed => decide_eq_decide.mpr (tail other listed)
  simp only [filter_cons, others, head, decide_eq_true_eq]

/-- The two passes from one issuer on: the entry at its position is its last epoch, and a key
is kept if it is recent or if no key of its issuer is. -/
theorem passes (minEpoch : Nat) (before : ∀ jwk ∈ jwks, rank issuer ≤ rank jwk.jwkId.iss)
    (grouped : Grouped jwks) (epoch : Nat) (earlier : List Nat) :
    ∃ latest later,
      issuerMaxEpochs jwks (some issuer) (earlier ++ [epoch]) = .ok (earlier ++ latest :: later) ∧
      (latest < minEpoch ↔
        epoch < minEpoch ∧ ∀ jwk ∈ jwks, jwk.jwkId.iss = issuer → jwk.epoch < minEpoch) ∧
      retain minEpoch (earlier ++ latest :: later) jwks (some issuer) earlier.length =
        .ok (jwks.filter fun jwk => minEpoch ≤ jwk.epoch ∨
          (jwk.jwkId.iss = issuer → epoch < minEpoch) ∧
          ∀ other ∈ jwks, other.jwkId.iss = jwk.jwkId.iss → other.epoch < minEpoch) := by
  induction jwks generalizing issuer epoch earlier with
  | nil => exact ⟨epoch, [], rfl, by simp, rfl⟩
  | cons cur jwks ih =>
    obtain ⟨first, before⟩ := forall_mem_cons.mp before
    obtain ⟨curBefore, grouped⟩ := pairwise_cons.mp grouped
    by_cases same : cur.jwkId.iss = issuer
    · subst same
      obtain ⟨latest, later, counted, bound, retained⟩ :=
        ih curBefore grouped (max epoch cur.epoch) earlier
      refine ⟨latest, later, ?_, ?_, ?_⟩
      · have back : U64.sub (earlier ++ [epoch]).length 1 = .ok earlier.length := by simp
        have last : borrow (earlier ++ [epoch]) earlier.length = .ok epoch := by simp [borrow]
        rw [issuerMaxEpochs, if_pos rfl, back, ok_bind, last, ok_bind,
          set_append_right _ _ le_rfl, Nat.sub_self]
        exact counted
      · rw [bound, Nat.max_lt, forall_mem_cons, and_assoc]
        simp
      · have found : borrow (earlier ++ latest :: later) earlier.length = .ok latest := by
          simp [borrow]
        simp only [retain, or_true, if_true, found, ok_bind, retained, bound]
        exact congrArg Except.ok (filter_cons_of (by grind) (by grind))
    · obtain ⟨latest, later, counted, bound, retained⟩ :=
        ih curBefore grouped cur.epoch (earlier ++ [epoch])
      have passed : ∀ jwk ∈ cur :: jwks, jwk.jwkId.iss ≠ issuer := by
        rintro jwk listed rfl
        apply same
        apply rank_injective
        apply le_antisymm _ first
        rcases mem_cons.mp listed with rfl | later
        · exact le_rfl
        · exact curBefore jwk later
      refine ⟨epoch, latest :: later, ?_, ?_, ?_⟩
      · rw [issuerMaxEpochs, if_neg (Ne.symm same ∘ Option.some.inj), counted, append_assoc]
        rfl
      · exact (and_iff_left fun jwk listed issued => absurd issued (passed jwk listed)).symm
      · have found : borrow (earlier ++ epoch :: latest :: later) (earlier.length + 1) =
            .ok latest := by
          simp [borrow]
        rw [append_assoc, length_append, singleton_append, length_singleton] at retained
        simp only [retain, reduceCtorEq, Option.some.injEq, Ne.symm same, or_self, if_false, found,
          ok_bind, retained, bound]
        exact congrArg Except.ok (filter_cons_of (by grind) (by grind))

/-- The keys that expiry is to keep: the recent ones, and those of an issuer that has none. -/
def unexpired (minEpoch : Nat) (jwks : List ActiveJwk) : List ActiveJwk :=
  jwks.filter fun jwk => minEpoch ≤ jwk.epoch ∨
    ∀ other ∈ jwks, other.jwkId.iss = jwk.jwkId.iss → other.epoch < minEpoch

/-- Expiry keeps exactly the unexpired keys. -/
theorem expiry (grouped : Grouped jwks) (minEpoch : Nat) :
    ∃ maxEpochs, issuerMaxEpochs jwks none [] = .ok maxEpochs ∧
      retain minEpoch maxEpochs jwks none 0 = .ok (unexpired minEpoch jwks) := by
  cases jwks with
  | nil => exact ⟨[], rfl, rfl⟩
  | cons cur jwks =>
    -- Reading the first key a second time changes nothing.
    obtain ⟨latest, later, counted, _, retained⟩ := passes minEpoch
      (forall_mem_cons.mpr ⟨le_rfl, (pairwise_cons.mp grouped).1⟩) grouped cur.epoch []
    refine ⟨latest :: later, ?_, ?_⟩
    · simpa [issuerMaxEpochs, borrow, U64.sub, checkedSub, ok_bind] using counted
    · rw [retain] at retained ⊢
      simp only [true_or, or_true, if_true] at retained ⊢
      refine Eq.trans retained (congrArg Except.ok (filter_congr ?_))
      grind

/-- Every issuer keeps a key. -/
theorem exists_unexpired {jwk : ActiveJwk} (minEpoch : Nat) (listed : jwk ∈ jwks) :
    ∃ kept ∈ unexpired minEpoch jwks, kept.jwkId.iss = jwk.jwkId.iss := by
  by_cases recent : ∃ other ∈ jwks, other.jwkId.iss = jwk.jwkId.iss ∧ minEpoch ≤ other.epoch
  · obtain ⟨other, present, same, recent⟩ := recent
    exact ⟨other, mem_filter.mpr ⟨present, by simp [recent]⟩, same⟩
  · push Not at recent
    exact ⟨jwk, mem_filter.mpr ⟨listed, by simpa using .inr recent⟩, rfl⟩

end ActiveJwk

namespace AuthenticatorState

open ActiveJwk

variable {state : AuthenticatorState}

/-- The versions are right, and the keys of an issuer stand together. -/
def Valid (state : AuthenticatorState) : Prop :=
  (state.version = 1 ∧ state.innerVersion = 1) ∧ Grouped state.activeJwks

theorem Valid.loadInner (valid : state.Valid) : state.loadInner = .ok state.activeJwks := by
  obtain ⟨⟨version, innerVersion⟩, _⟩ := valid
  simp [AuthenticatorState.loadInner, version, innerVersion]

theorem Valid.expireJwks (valid : state.Valid) (minEpoch : Nat) (sender : Address) :
    state.expireJwks minEpoch sender = (requireSystem sender >>= fun _ =>
      .ok { state with activeJwks := unexpired minEpoch state.activeJwks }) := by
  obtain ⟨maxEpochs, counted, retained⟩ := expiry valid.2 minEpoch
  simp only [AuthenticatorState.expireJwks, valid.loadInner, ok_bind, counted, retained]

/-- Every reachable state is valid. -/
theorem Reachable.valid (reachable : Reachable state) : state.Valid := by
  induction reachable with
  | create created =>
    obtain ⟨_, _, ⟨⟩⟩ := bind_eq_ok.mp created
    exact ⟨⟨rfl, rfl⟩, .nil⟩
  | update _ updated valid =>
    simp only [updateAuthenticatorState, valid.loadInner, ok_bind, bind_eq_ok] at updated
    obtain ⟨_, _, _, checked, ⟨⟩⟩ := updated
    refine ⟨valid.1, grouped_merge valid.2 ?_⟩
    exact (grouped_of_checkSorted checked).sublist (deduplicate_sublist none _)
  | expire _ expired valid =>
    rw [valid.expireJwks, bind_eq_ok] at expired
    obtain ⟨_, _, ⟨⟩⟩ := expired
    exact ⟨valid.1, valid.2.filter _⟩

/-- Expiry aborts for no sender but another one than the system.  It keeps, in their order,
the recent keys and all keys of an issuer that has none, so every issuer keeps a key. -/
theorem expireJwks_of_reachable (reachable : Reachable state) (minEpoch : Nat)
    (sender : Address) :
    state.expireJwks minEpoch sender = (requireSystem sender >>= fun _ =>
      .ok { state with activeJwks := unexpired minEpoch state.activeJwks }) ∧
    ∀ jwk ∈ state.activeJwks,
      ∃ kept ∈ unexpired minEpoch state.activeJwks, kept.jwkId.iss = jwk.jwkId.iss :=
  ⟨reachable.valid.expireJwks minEpoch sender, fun _ => exists_unexpired minEpoch⟩

/-- A key of one issuer is expired, and the only key of another one is not. -/
theorem expireJwks_two_issuers :
    let jwk (iss kid : UInt8) epoch : ActiveJwk := ⟨⟨[iss], [kid]⟩, ⟨[], [], [], []⟩, epoch⟩
    (expireJwks ⟨1, 1, [jwk 1 1 4, jwk 1 2 5, jwk 2 1 4]⟩ 5 0).toOption =
      some ⟨1, 1, [jwk 1 2 5, jwk 2 1 4]⟩ := by
  intro jwk
  have created : create 0 = .ok ⟨1, 1, []⟩ := rfl
  have updated : updateAuthenticatorState ⟨1, 1, []⟩ [jwk 1 1 4, jwk 1 2 5, jwk 2 1 4] 0 =
      .ok ⟨1, 1, [jwk 1 1 4, jwk 1 2 5, jwk 2 1 4]⟩ := by
    exact toOption_eq_some.mp (by decide +kernel)
  rw [(expireJwks_of_reachable (.update (.create created) updated) 5 0).1]
  decide +kernel

end AuthenticatorState

end Sui.Framework
