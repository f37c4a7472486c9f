import Sui.Authority.Store
import Sui.Library.Worklist

/-!
# Ownership of modified objects

After an execution the owner of every modified object, or the owner of its owner, and so on,
has to be an input of the transaction.  A chain of owners that comes to an id without an object
or to itself is accepted; one that comes to a shared or an immutable object is not.
-/

namespace Sui.Adapter

open Library List
open Std (ExtTreeMap)
open Authority (ObjectID Object Owner)

/-- What the check reads of an execution. -/
structure TemporaryStore where
  store : ExtTreeMap ObjectID Object
  inputObjects : ExtTreeMap ObjectID Object
  /-- In the order in which they are visited. -/
  modifiedObjects : List ObjectID

inductive Panic
  | inputObjectNotOwnedBySender
  | inputObjectOwnedByObject
  | modifiedObjectMustExist (id : ObjectID)
  | shouldAlreadyBeAuthenticated
  | immutableObjectsCannotBeWritten
  | onlySystemPackagesCanBeUpgraded
  | unauthenticatedRoot (id : ObjectID) (owner : Owner) (covered : List (ObjectID × ObjectID))

def isSystemPackage (id : ObjectID) : Bool :=
  id ∈ [0x1, 0x2, 0x3, 0xdee9]

/-- The id of the owner. -/
def parent : Owner → Option ObjectID
  | .objectOwner parent | .addressOwner parent => some parent
  | .shared _ | .immutable => none

/-- Whether an input is authenticated. -/
def authenticateInput (sender : Nat) (gasObjs : List ObjectID) (id : ObjectID) (owner : Owner) :
    Except Panic Bool :=
  if id ∈ gasObjs then .ok false
  else match owner with
    | .addressOwner address =>
      if sender = address then .ok true else .error .inputObjectNotOwnedBySender
    | .shared _ => .ok true
    -- An immutable object does not own other objects.
    | .immutable => .ok false
    | .objectOwner _ => .error .inputObjectOwnedByObject

/-- The objects that are covered by their owners. -/
def ids (covered : List (ObjectID × ObjectID)) : List ObjectID :=
  covered.map Prod.fst

namespace TemporaryStore

/-- Whether the owner of a modified object has to be authenticated. -/
def authenticateModified (store : ExtTreeMap ObjectID Object)
    (gasObjs authenticated : List ObjectID) (isEpochChange : Bool) (id : ObjectID) :
    Except Panic Bool :=
  if id ∈ authenticated ∨ id ∈ gasObjs then .ok false
  else match store[id]? with
    | none => .error (.modifiedObjectMustExist id)
    | some oldObj => match oldObj.owner with
      | .objectOwner _ | .addressOwner _ => .ok true
      | .shared _ => .error .shouldAlreadyBeAuthenticated
      | .immutable => do
        require (isEpochChange = true) .immutableObjectsCannotBeWritten
        require (isSystemPackage id = true) .onlySystemPackagesCanBeUpgraded
        return false

def getObjectsToAuthenticate (self : TemporaryStore) (sender : Nat) (gasObjs : List ObjectID)
    (isEpochChange : Bool) : Except Panic (List ObjectID × List ObjectID) := do
  let inputs ← self.inputObjects.toList.filterM fun entry =>
    authenticateInput sender gasObjs entry.1 entry.2.owner
  let authenticated := inputs.map Prod.fst
  let toAuthenticate ← self.modifiedObjects.filterM
    (authenticateModified self.store gasObjs authenticated isEpochChange)
  return (toAuthenticate, authenticated)

variable {store : ExtTreeMap ObjectID Object}

/-- Covering an object leaves fewer objects to cover, unless it is covered already. -/
theorem covers_less {id : ObjectID}
    {stack left : List ObjectID} (covered : List ObjectID) (found : store[id]? = some oldObj)
    (light : left.length + left.countP (· ∈ covered) ≤
      stack.length + 1 + stack.countP (· ∈ covered)) :
    Prod.Lex (· < ·) (· < ·)
      (unmarked store.keys (id :: covered), left.length + left.countP (· ∈ id :: covered))
      (unmarked store.keys covered, (id :: stack).length + (id :: stack).countP (· ∈ covered)) := by
  by_cases isCovered : id ∈ covered
  · have same (other : ObjectID) : other ∈ id :: covered ↔ other ∈ covered :=
      List.mem_cons.trans (or_iff_right_of_imp fun equal => equal ▸ isCovered)
    simp only [unmarked, same]
    apply Prod.Lex.right
    simp only [List.countP_cons, isCovered, decide_true, List.length_cons, if_true]
    omega
  · apply Prod.Lex.left
    have stored : id ∈ store.keys := by
      rw [ExtTreeMap.mem_keys, ExtTreeMap.mem_iff_isSome_getElem?, found]
      rfl
    have fewer := length_add_unmarked_le store.keys covered (List.nodup_singleton id)
      (by simpa using stored) (by simpa using isCovered)
    rw [List.length_singleton, List.singleton_append] at fewer
    omega

/-- The loop over the stack of the ids that are left. -/
def authenticate (store : ExtTreeMap ObjectID Object) (authenticated : List ObjectID)
    (covered : List (ObjectID × ObjectID)) : List ObjectID → Except Panic Unit
  | [] => .ok ()
  | id :: stack =>
    match _found : store[id]? with
    -- The id of a table or a bag has no object.
    | none => authenticate store authenticated covered stack
    | some oldObj => match parent oldObj.owner with
      | none => .error (.unauthenticatedRoot id oldObj.owner covered)
      | some parent =>
        if parent ∈ authenticated then
          authenticate store (id :: authenticated) ((id, parent) :: covered) stack
        else if parent ∈ ids covered then
          authenticate store authenticated ((id, parent) :: covered) stack
        else
          authenticate store authenticated ((id, parent) :: covered) (parent :: stack)
termination_by stack =>
  (unmarked store.keys (ids covered), stack.length + stack.countP (· ∈ ids covered))
decreasing_by
  · apply Prod.Lex.right
    rw [List.countP_cons, List.length_cons]
    omega
  · exact covers_less (ids covered) _found (by omega)
  · exact covers_less (ids covered) _found (by omega)
  · next absent => exact covers_less (ids covered) _found (by simp [absent])

def checkOwnershipInvariants (self : TemporaryStore) (sender : Nat) (gasObjs : List ObjectID)
    (isEpochChange : Bool) : Except Panic Unit := do
  let (toAuthenticate, authenticated) ←
    self.getObjectsToAuthenticate sender gasObjs isEpochChange
  authenticate self.store authenticated [] toAuthenticate.reverse

/-! ## Chains of owners -/

/-- What owns a stored object. -/
def ownerOf (store : ExtTreeMap ObjectID Object) (id : ObjectID) : Option (Option ObjectID) :=
  store[id]?.map fun object => parent object.owner

/-- The chain of owners comes to a shared or an immutable object before it comes to an
authenticated input, to an id without an object or to itself. -/
inductive Foreign (store : ExtTreeMap ObjectID Object) (authentic : ObjectID → Prop) :
    ObjectID → Prop
  | root {id : ObjectID} (unowned : ownerOf store id = some none) : Foreign store authentic id
  | child {id owner : ObjectID} (owned : ownerOf store id = some (some owner))
      (unauthentic : ¬authentic owner) (foreign : Foreign store authentic owner) :
    Foreign store authentic id

/-- The owner of what is popped is authentic, popped or left. -/
def Closed (store : ExtTreeMap ObjectID Object) (authentic : ObjectID → Prop)
    (popped stack : List ObjectID) : Prop :=
  ∀ id ∈ popped, ∀ next ∈ ownerOf store id, ∃ owner ∈ next,
    authentic owner ∨ owner ∈ popped ∨ owner ∈ stack

section

variable {store : ExtTreeMap ObjectID Object} {authentic : ObjectID → Prop} {id owner : ObjectID}
  {authenticated popped stack left : List ObjectID}

/-- If nothing that is left is foreign, then nothing that is popped is. -/
theorem Closed.not_foreign (closed : Closed store authentic popped stack)
    (none : ∀ id ∈ stack, ¬Foreign store authentic id) (isPopped : id ∈ popped) :
    ¬Foreign store authentic id := by
  intro foreign
  induction foreign with
  | root unowned =>
    obtain ⟨_, impossible, _⟩ := closed _ isPopped _ unowned
    cases impossible
  | child owned unauthentic foreign ih =>
    obtain ⟨_, ⟨⟩, isAuthentic | again | isLeft⟩ := closed _ isPopped _ owned
    · exact unauthentic isAuthentic
    · exact ih again
    · exact none _ isLeft foreign

/-- What a popped object leads to is authentic, popped or left. -/
theorem Closed.pop (closed : Closed store authentic popped (id :: stack)) (rest : stack ⊆ left)
    (settled : ∀ next ∈ ownerOf store id, ∃ owner ∈ next,
      authentic owner ∨ owner ∈ popped ∨ owner ∈ left) :
    Closed store authentic (id :: popped) left := by
  intro other listed next isNext
  rcases mem_cons.mp listed with rfl | before
  · obtain ⟨owner, isOwner, found⟩ := settled next isNext
    exact ⟨owner, isOwner, found.imp_right (Or.imp_left (mem_cons_of_mem _))⟩
  · obtain ⟨owner, isOwner, found⟩ := closed other before next isNext
    have later := @rest owner
    refine ⟨owner, isOwner, ?_⟩
    rw [mem_cons] at found ⊢
    tauto

theorem Closed.pop_iff (closed : Closed store authentic (id :: popped) stack) :
    (∀ other ∈ stack, ¬Foreign store authentic other) ↔
      ∀ other ∈ id :: stack, ¬Foreign store authentic other := by
  rw [forall_mem_cons]
  exact ⟨fun none => ⟨closed.not_foreign none mem_cons_self, none⟩, And.right⟩

/-- The loop panics when a chain is foreign. -/
theorem authenticate_eq_ok {covered : List (ObjectID × ObjectID)}
    (inputs : ∀ id, authentic id → id ∈ authenticated)
    (known : ∀ id ∈ authenticated, authentic id ∨ id ∈ popped) (covers : ids covered ⊆ popped)
    (closed : Closed store authentic popped stack) :
    authenticate store authenticated covered stack = .ok () ↔
      ∀ id ∈ stack, ¬Foreign store authentic id := by
  have wider (id : ObjectID) {authenticated popped : List ObjectID}
      (known : ∀ id ∈ authenticated, authentic id ∨ id ∈ popped) :
      ∀ other ∈ authenticated, authentic other ∨ other ∈ id :: popped :=
    fun other listed => (known other listed).imp_right (mem_cons_of_mem id)
  fun_induction authenticate store authenticated covered stack generalizing popped with
  | case1 => exact iff_of_true rfl nofun
  | case2 authenticated covered id stack found ih =>
    have next := closed.pop (Subset.refl _) (by simp [ownerOf, found])
    exact (ih inputs (wider id known) (subset_cons_of_subset id covers) next).trans next.pop_iff
  | case3 authenticated covered id stack object found unowned =>
    exact iff_of_false nofun fun none =>
      none id mem_cons_self (.root (by simp [ownerOf, found, unowned]))
  | case4 authenticated covered id stack object found owner isOwner isAuthenticated ih =>
    have next := closed.pop (Subset.refl _) (by
      simpa [ownerOf, found, isOwner] using (known owner isAuthenticated).imp_right .inl)
    exact (ih (fun other listed => mem_cons_of_mem id (inputs other listed))
      (forall_mem_cons.mpr ⟨.inr mem_cons_self, wider id known⟩) (cons_subset_cons id covers)
      next).trans next.pop_iff
  | case5 authenticated covered id stack object found owner isOwner _ isCovered ih =>
    have next := closed.pop (Subset.refl _) (by simp [ownerOf, found, isOwner, covers isCovered])
    exact (ih inputs (wider id known) (cons_subset_cons id covers) next).trans next.pop_iff
  | case6 authenticated covered id stack object found owner isOwner unauthenticated _ ih =>
    have owned : ownerOf store id = some (some owner) := by simp [ownerOf, found, isOwner]
    have next := closed.pop (subset_cons_self owner _) (by simp [owned])
    refine (ih inputs (wider id known) (cons_subset_cons id covers) next).trans ?_
    rw [forall_mem_cons, forall_mem_cons]
    refine and_congr_left fun others => ⟨fun first => ?_, mt ?_⟩
    · exact next.not_foreign (forall_mem_cons.mpr ⟨first, others⟩) mem_cons_self
    · exact .child owned (mt (inputs owner) unauthenticated)

end

/-! ## The check -/

/-- The owner of an input that may own objects. -/
def Rooting (sender : Nat) (owner : Owner) : Prop :=
  owner = .addressOwner sender ∨ ∃ version, owner = .shared version

theorem authenticateInput_eq_ok {id : ObjectID} :
    authenticateInput sender gasObjs id owner = .ok result ↔ if result then
      id ∉ gasObjs ∧ Rooting sender owner else id ∈ gasObjs ∨ owner = .immutable := by
  unfold authenticateInput Rooting
  cases owner <;> grind

/-- A package of the system, which an epoch change may write. -/
def Upgradable (store : ExtTreeMap ObjectID Object) (id : ObjectID) : Prop :=
  isSystemPackage id ∧ ∃ object, store[id]? = some object ∧ object.owner = .immutable

/-- When authenticating a modified object succeeds. -/
theorem authenticateModified_accepts {id : ObjectID}
    {authentic foreign : Prop} (isAuthentic : id ∈ authenticated ↔ authentic)
    (root : ownerOf store id = some none → foreign) :
    (∃ kept, authenticateModified store gasObjs authenticated isEpochChange id = .ok kept ∧
        (kept = true → ¬foreign)) ↔
      ¬(¬authentic ∧ id ∉ gasObjs ∧ (store[id]? = none ∨
        foreign ∧ ¬(isEpochChange ∧ Upgradable store id))) := by
  rw [← isAuthentic]
  unfold authenticateModified
  split
  · exact iff_of_true ⟨false, rfl, nofun⟩ (by tauto)
  · next fresh =>
    rw [not_or] at fresh
    unfold ownerOf at root
    cases found : store[id]? with
    | none => simp [fresh]
    | some object =>
      rw [found] at root
      cases isOwner : object.owner <;>
        simp_all [Upgradable, parent]

variable (self : TemporaryStore) (sender : Nat) (gasObjs : List ObjectID) (isEpochChange : Bool)

/-- An input that may own objects. -/
def Authentic (id : ObjectID) : Prop :=
  ∃ object, self.inputObjects[id]? = some object ∧ id ∉ gasObjs ∧ Rooting sender object.owner

/-- Some input may not be used, or some modified object that is not an input has no object or a
foreign chain. -/
def Violated : Prop :=
  (∃ id object, self.inputObjects[id]? = some object ∧ id ∉ gasObjs ∧
    object.owner ≠ .immutable ∧ ¬Rooting sender object.owner) ∨
  ∃ id ∈ self.modifiedObjects, ¬self.Authentic sender gasObjs id ∧ id ∉ gasObjs ∧
    (self.store[id]? = none ∨ Foreign self.store (self.Authentic sender gasObjs) id ∧
      ¬(isEpochChange ∧ Upgradable self.store id))

/-- The check passes exactly if nothing is violated. -/
theorem checkOwnershipInvariants_eq_ok :
    self.checkOwnershipInvariants sender gasObjs isEpochChange = .ok () ↔
      ¬self.Violated sender gasObjs isEpochChange := by
  let authenticated := (self.inputObjects.toList.filter fun entry =>
      (authenticateInput sender gasObjs entry.1 entry.2.owner).toOption = some true).map Prod.fst
  have authentic (id : ObjectID) : id ∈ authenticated ↔ self.Authentic sender gasObjs id := by
    simp [authenticated, toOption_eq_some, authenticateInput_eq_ok, Authentic]
  have loop (stack : List ObjectID) : authenticate self.store authenticated [] stack = .ok () ↔
      ∀ id ∈ stack, ¬Foreign self.store (self.Authentic sender gasObjs) id :=
    authenticate_eq_ok (fun id => (authentic id).mpr)
      (fun id listed => .inl ((authentic id).mp listed)) (nil_subset []) nofun
  have usable : (∀ entry ∈ self.inputObjects.toList, ∃ result,
      authenticateInput sender gasObjs entry.1 entry.2.owner = .ok result) ↔ ¬∃ id object,
        self.inputObjects[id]? = some object ∧ id ∉ gasObjs ∧ object.owner ≠ .immutable ∧
          ¬Rooting sender object.owner := by
    simp only [authenticateInput_eq_ok, Bool.exists_bool, Prod.forall,
      ExtTreeMap.mem_toList_iff_getElem?_eq_some]
    grind
  simp only [Violated, not_or, ← usable, checkOwnershipInvariants, getObjectsToAuthenticate,
    bind_eq_ok, filterM_eq_ok, pure_eq_ok]
  constructor
  · rintro ⟨_, ⟨_, ⟨usable, rfl⟩, _, ⟨each, rfl⟩, rfl⟩, done⟩
    refine ⟨usable, ?_⟩
    rintro ⟨id, listed, violated⟩
    obtain ⟨kept, isKept⟩ := each id listed
    refine (authenticateModified_accepts (authentic id) Foreign.root).mp ⟨kept, isKept, ?_⟩ violated
    rintro rfl
    exact (loop _).mp done id (by simpa [toOption_eq_some] using ⟨listed, isKept⟩)
  · rintro ⟨usable, clean⟩
    have each (id : ObjectID) (listed : id ∈ self.modifiedObjects) :=
      (authenticateModified_accepts (authentic id) Foreign.root).mpr fun violated =>
        clean ⟨id, listed, violated⟩
    refine ⟨_, ⟨_, ⟨usable, rfl⟩, _, ⟨fun id listed => ?_, rfl⟩, rfl⟩,
      (loop _).mpr fun id listed => ?_⟩
    · exact (each id listed).imp fun _ => And.left
    · rw [mem_reverse, mem_filter, decide_eq_true_eq, toOption_eq_some] at listed
      obtain ⟨kept, isKept, clean⟩ := each id listed.1
      exact clean (Except.ok.inj (isKept.symm.trans listed.2))

/-- The check panics when an input may not be used or a modified object that is not an input has
no object or a foreign chain.  The order in which the modified objects are visited does not
matter. -/
theorem checkOwnershipInvariants_panics_iff :
    ((∃ panic, self.checkOwnershipInvariants sender gasObjs isEpochChange = .error panic) ↔
      self.Violated sender gasObjs isEpochChange) ∧
    ∀ order, order.Perm self.modifiedObjects →
      ({ self with modifiedObjects := order }.checkOwnershipInvariants sender gasObjs
        isEpochChange = .ok () ↔
      self.checkOwnershipInvariants sender gasObjs isEpochChange = .ok ()) := by
  constructor
  · rw [← not_iff_not, ← checkOwnershipInvariants_eq_ok]
    cases self.checkOwnershipInvariants sender gasObjs isEpochChange <;> simp
  · intro order same
    simp only [checkOwnershipInvariants_eq_ok, Violated, same.mem_iff]
    rfl

/-- An input of another sender makes the check panic, although nothing is modified. -/
theorem checkOwnershipInvariants_unmodified :
    ∃ panic, checkOwnershipInvariants ⟨∅, (∅ : ExtTreeMap ObjectID Object).insert 1
      ⟨1, 1, 11, .addressOwner 8, false⟩, []⟩ 7 [] false = .error panic :=
  ⟨.inputObjectNotOwnedBySender, rfl⟩

end TemporaryStore

/-! ## Circular ownership

The transfers of a transaction go into a map from objects to the objects that own them.
Before an object gets an owner, the owners of that owner are followed, and the transfer is
refused if they come to the object.  The map never has a cycle, so that following the owners
ends, and a cycle of the transfers is found with the last of its edges. -/

open Authority Relation Function

/-- How the check fails. -/
inductive CircularFailure
  | circularObjectOwnership (object : ObjectID)
  /-- Not an error: a loop goes on after the turns that it was given. -/
  | outOfTurns

variable (turns : Nat) (owners : ExtTreeMap ObjectID ObjectID)

/-- Look for an object among the owners of another one. -/
def followOwners (id : ObjectID) : Nat → ObjectID → Except CircularFailure Unit
  | 0, _ => .error .outOfTurns
  | turns + 1, cur =>
    if cur = id then
      .error (.circularObjectOwnership cur)
    else
      match owners[cur]? with
      | some parent => followOwners id turns parent
      | none => .ok ()

/-- Add a transfer to the map. -/
def addTransfer : ObjectID × Owner → Except CircularFailure (ExtTreeMap ObjectID ObjectID)
  | (id, recipient) =>
    let owners := owners.erase id
    match recipient with
    | .addressOwner _ | .shared _ | .immutable => .ok owners
    | .objectOwner newOwner => do
      followOwners owners id turns newOwner
      return owners.insert id newOwner

/-- Whether transfers are accepted, if no loop takes more than some turns. -/
def checkCircularOwnership (transfers : List (ObjectID × Owner)) : Except CircularFailure Unit := do
  let _ ← transfers.foldlM (addTransfer turns) ∅

/-- A check that ends and fails exactly if there is a cycle. -/
def Decides (cyclic : Prop) : Except CircularFailure α → Prop
  | .ok _ => ¬cyclic
  | .error (.circularObjectOwnership _) => cyclic
  | .error .outOfTurns => False

/-- Two decisions one after the other. -/
theorem Decides.bind {program : Except CircularFailure α} {next : α → Except CircularFailure β}
    (first : Decides leads program) (refused : leads → cyclic)
    (accepted : ∀ value, ¬leads → Decides cyclic (next value)) :
    Decides cyclic (program >>= next) := by
  cases program with
  | ok value => exact accepted value first
  | error failure =>
    cases failure with
    | circularObjectOwnership => exact refused first
    | outOfTurns => exact first

/-- The owners that objects have in a map or get by transfers. -/
def Owned (transfers : List (ObjectID × Owner)) (id parent : ObjectID) : Prop :=
  owners[id]? = some parent ∨ (id, .objectOwner parent) ∈ transfers

/-- A new edge makes no cycle if its end does not lead back to its start. -/
theorem wellFounded_of_edge {step next : α → α → Prop} {start target : α}
    (wellFounded : WellFounded (swap step))
    (edges : ∀ left right, next left right → step left right ∨ left = start ∧ right = target)
    (apart : ¬ReflTransGen step target start) :
    WellFounded (swap next) := by
  have away : ∀ item, ¬ReflTransGen step item start → Acc (swap next) item := by
    intro item
    induction item using wellFounded.induction with
    | h item ih =>
      intro apart
      refine ⟨_, fun other edge => ?_⟩
      rcases edges item other edge with old | ⟨rfl, _⟩
      · exact ih other old fun leads => apart (leads.head old)
      · exact absurd .refl apart
  refine ⟨fun item => ?_⟩
  induction item using wellFounded.induction with
  | h item ih =>
    refine ⟨_, fun other edge => ?_⟩
    rcases edges item other edge with old | ⟨_, rfl⟩
    · exact ih other old
    · exact away other apart

variable {owners}

/-- Following the owners ends if they have no cycle. -/
theorem followOwners_decides (wellFounded : WellFounded (swap (Owned owners [])))
    (id cur : ObjectID) :
    ∃ bound, ∀ turns, bound ≤ turns →
      Decides (ReflTransGen (Owned owners []) cur id) (followOwners owners id turns cur) := by
  induction cur using wellFounded.induction with
  | h cur ih =>
    by_cases found : cur = id
    · refine ⟨1, fun turns enough => ?_⟩
      obtain ⟨rest, rfl⟩ := Nat.exists_eq_add_of_le' enough
      rw [followOwners, if_pos found, found]
      exact .refl
    · have next : ReflTransGen (Owned owners []) cur id ↔
          ∃ parent, owners[cur]? = some parent ∧ ReflTransGen (Owned owners []) parent id := by
        rw [ReflTransGen.cases_head_iff]
        simp [found, Owned]
      rw [next]
      cases lookup : owners[cur]? with
      | none =>
        refine ⟨1, fun turns enough => ?_⟩
        obtain ⟨rest, rfl⟩ := Nat.exists_eq_add_of_le' enough
        rw [followOwners, if_neg found, lookup]
        rintro ⟨_, ⟨⟩, _⟩
      | some parent =>
        obtain ⟨bound, ends⟩ := ih parent (.inl lookup)
        refine ⟨bound + 1, fun turns enough => ?_⟩
        obtain ⟨rest, rfl⟩ := Nat.exists_eq_add_of_le' enough
        rw [← Nat.add_assoc, followOwners, if_neg found, lookup]
        simpa using ends _ (by omega)

theorem owned_cons (after : ExtTreeMap ObjectID ObjectID)
    (added : ∀ id parent, after[id]? = some parent ↔
      owners[id]? = some parent ∨ (id, .objectOwner parent) = transfer) :
    Owned owners (transfer :: transfers) = Owned after transfers := by
  funext id parent
  rw [Owned, Owned, added, mem_cons, or_assoc]

/-- The transfers that are left are decided on if the map has no cycle. -/
theorem foldlM_decides (wellFounded : WellFounded (swap (Owned owners [])))
    (distinct : (transfers.map Prod.fst).Nodup)
    (fresh : ∀ transfer ∈ transfers, owners[transfer.1]? = none) :
    ∃ bound, ∀ turns, bound ≤ turns → Decides (∃ id, TransGen (Owned owners transfers) id id)
        (transfers.foldlM (addTransfer turns) owners) := by
  induction transfers generalizing owners with
  | nil =>
    refine ⟨0, fun turns _ ⟨id, cycle⟩ => ?_⟩
    rw [← transGen_swap] at cycle
    exact wellFounded.transGen.asymmetric _ _ cycle cycle
  | cons transfer transfers ih =>
    obtain ⟨id, recipient⟩ := transfer
    obtain ⟨unlisted, restDistinct⟩ := nodup_cons.mp distinct
    obtain ⟨missing, restFresh⟩ := forall_mem_cons.mp fresh
    simp only [foldlM_cons, addTransfer, Map.erase_of_absent missing]
    cases recipient with
    | addressOwner | shared | immutable =>
      rw [owned_cons owners fun _ _ => by simp]
      exact ih wellFounded restDistinct restFresh
    | objectOwner newOwner =>
      obtain ⟨bound, ends⟩ := followOwners_decides wellFounded id newOwner
      by_cases leads : ReflTransGen (Owned owners []) newOwner id
      · refine ⟨bound, fun turns enough => ?_⟩
        have back : ReflTransGen (Owned owners ((id, .objectOwner newOwner) :: transfers))
            newOwner id :=
          ReflTransGen.mono (fun _ _ => Or.imp_right nofun) _ _ leads
        have cycle := TransGen.head' (.inr mem_cons_self) back
        rw [bind_assoc]
        exact (ends turns enough).bind (fun _ => ⟨id, cycle⟩) fun _ apart => absurd leads apart
      · have added : ∀ child parent, (owners.insert id newOwner)[child]? = some parent ↔
            owners[child]? = some parent ∨
              (child, Owner.objectOwner parent) = (id, .objectOwner newOwner) := by
          intro child parent
          rw [Map.getElem?_insert]
          split
          · next same =>
            subst same
            simp [missing, eq_comm]
          · next different => simp [Ne.symm different]
        have stillFresh : ∀ transfer ∈ transfers,
            (owners.insert id newOwner)[transfer.1]? = none := by
          intro transfer listed
          rw [Map.getElem?_insert, if_neg]
          · exact restFresh transfer listed
          · rintro rfl
            exact unlisted (mem_map.mpr ⟨transfer, listed, rfl⟩)
        have acyclic : WellFounded (swap (Owned (owners.insert id newOwner) [])) := by
          rw [← owned_cons _ added]
          exact wellFounded_of_edge wellFounded (by simp [Owned]) leads
        obtain ⟨later, decides⟩ := ih acyclic restDistinct stillFresh
        refine ⟨max bound later, fun turns enough => ?_⟩
        rw [owned_cons _ added, bind_assoc]
        exact (ends turns (by omega)).bind (absurd · leads) fun _ _ => decides turns (by omega)

/-- For all transfers of different objects the check ends, and it fails exactly if
they make an object own itself through other objects. -/
theorem checkCircularOwnership_decides (transfers : List (ObjectID × Owner))
    (distinct : (transfers.map Prod.fst).Nodup) :
    ∃ bound, ∀ turns, bound ≤ turns →
      Decides (∃ id, TransGen (fun id parent => (id, .objectOwner parent) ∈ transfers) id id)
        (checkCircularOwnership turns transfers) := by
  have graph : Owned ∅ transfers = fun id parent => (id, .objectOwner parent) ∈ transfers := by
    funext id parent
    simp [Owned]
  have empty : WellFounded (swap (Owned ∅ [])) := by
    refine ⟨fun _ => ⟨_, fun _ owned => ?_⟩⟩
    simp [Function.swap, Owned] at owned
  obtain ⟨bound, decides⟩ := foldlM_decides empty distinct (by simp)
  rw [graph] at decides
  exact ⟨bound, fun turns enough => (decides turns enough).bind id fun _ acyclic => acyclic⟩

/-- Two objects that own each other. -/
theorem checkCircularOwnership_decides_pair :
    ∃ bound, ∀ turns, bound ≤ turns →
      Decides (∃ id, TransGen (fun id parent => (id, .objectOwner parent) ∈
        [(1, Owner.objectOwner 2), (2, .objectOwner 1)]) id id)
        (checkCircularOwnership turns [(1, .objectOwner 2), (2, .objectOwner 1)]) :=
  checkCircularOwnership_decides _ (by decide)

end Sui.Adapter
