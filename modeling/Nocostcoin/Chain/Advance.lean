import Mathlib.Logic.Relation
import Nocostcoin.Chain.Replay

/-!
# What happens to the ledger of a chain

A delivery executes transactions of its block, commits or discards what is pending, and pays refunds, on
any database. `Advance` lists these, so that what a ledger keeps in every run is proved once for each of
them.
-/

namespace Nocostcoin

namespace State

/-- One thing that happens to the ledger while some transactions are offered to it. -/
inductive Advance (crypto : Crypto) (offered : Transaction → Prop) (s : State) : State → Prop
  | effect {tx : Transaction} {s₁ : State} (hoffered : offered tx)
      (hvalid : tx.validate crypto = .ok ()) (hnonce : tx.nonce = s.getNonce tx.sender)
      (heffect : Effect crypto s tx s₁) :
      Advance crypto offered s (s₁.modifyAccount tx.sender .bumpNonce)
  | residue {tx : Transaction} {s' : State} (hoffered : offered tx)
      (hvalid : tx.validate crypto = .ok ()) (hresidue : Residue crypto s tx s') :
      Advance crypto offered s s'
  | commit {host : Host} {result : Except String Unit} {s' : State}
      (happly : s.applyChanges crypto host = some (result, s')) : Advance crypto offered s s'
  | discard : Advance crypto offered s s.discardChanges
  | refund {tx : Transaction} (stake : UInt64) (hoffered : offered tx)
      (hdata : tx.data = .unregisterValidator) :
      Advance crypto offered s (s.modifyAccount tx.sender (.credit stake))
  | write {storage : Storage} (haccounts : storage.accounts = s.storage.accounts) :
      Advance crypto offered s { s with storage }

/-- Several such things one after another. -/
abbrev Advances (crypto : Crypto) (offered : Transaction → Prop) : State → State → Prop :=
  Relation.ReflTransGen (Advance crypto offered)

variable {crypto : Crypto} {offered offered' : Transaction → Prop} {s s' : State} {tx : Transaction}

/-- More transactions may be offered. -/
theorem Advances.mono (h : Advances crypto offered s s') (hoffered : ∀ tx, offered tx → offered' tx) :
    Advances crypto offered' s s' := by
  refine Relation.ReflTransGen.mono (fun before after hadvance => ?_) _ _ h
  cases hadvance with
  | effect htx hvalid hnonce heffect => exact .effect (hoffered _ htx) hvalid hnonce heffect
  | residue htx hvalid hresidue => exact .residue (hoffered _ htx) hvalid hresidue
  | commit happly => exact .commit happly
  | discard => exact .discard
  | refund stake htx hdata => exact .refund stake (hoffered _ htx) hdata
  | write haccounts => exact .write haccounts

/-- What each advance carries on, a run of them does. -/
theorem Advances.invariant (P : State → Prop) (h : Advances crypto offered s s') (hstart : P s)
    (hstep : ∀ before after, Advance crypto offered before after → P before → P after) : P s' := by
  induction h with
  | refl => exact hstart
  | tail _ hadvance ih => exact hstep _ _ hadvance ih

/-- A write to the database that leaves the accounts alone. -/
theorem advances_write {storage : Storage} (haccounts : storage.accounts = s.storage.accounts) :
    Advances crypto offered s { s with storage } := .single (.write haccounts)

/-- All accounts, pending or stored, have a property. -/
def Everywhere (P : Bytes → Account → Prop) (s : State) : Prop :=
  ∀ address account, s.pendingChanges.lookup address = some account ∨
    s.storage.accounts.lookup address = some account → P address account

variable {P : Bytes → Account → Prop}

/-- The account that is read has it, if a new one does. -/
theorem Everywhere.accountOrNew (h : s.Everywhere P) {address : Bytes} (hnew : P address (Account.new 0)) :
    P address (s.accountOrNew address) := by
  unfold State.accountOrNew State.getAccount Storage.getAccount
  cases hpending : s.pendingChanges.lookup address with
  | some account => exact h address account (.inl hpending)
  | none =>
    cases hstored : s.storage.accounts.lookup address with
    | some account => exact h address account (.inr hstored)
    | none => exact hnew

/-- Rewriting an account to one with the property. -/
theorem Everywhere.modifyAccount (h : s.Everywhere P) {address : Bytes} {update : Account → Account}
    (hupdate : P address (update (s.accountOrNew address))) :
    (s.modifyAccount address update).Everywhere P := by
  rintro other account (hpending | hstored)
  · change (s.pendingChanges.insert address _).lookup other = some account at hpending
    rw [FiniteMap.lookup_insert_ite] at hpending
    split at hpending
    · rename_i heq
      rw [← Option.some.inj hpending, heq]
      exact hupdate
    · exact h other account (.inl hpending)
  · exact h other account (.inr hstored)

/-- A commit, finished or stopped, brings no account that was neither pending nor stored. -/
theorem everywhere_of_commit {host : Host} {result : Except String Unit} (hbefore : s.Everywhere P)
    (h : s.applyChanges crypto host = some (result, s')) : s'.Everywhere P := by
  have hstored := stored_of_applyChanges h
  obtain ⟨⟨outcome, walked⟩, hwalk, hfinish⟩ := Option.bind_eq_some_iff.mp h
  have hpendingKept : ∀ address account, s'.pendingChanges.lookup address = some account →
      s.pendingChanges.lookup address = some account := by
    intro address account hpending
    obtain ⟨stored, trie, rfl, -, -⟩ := storeChanges_stored hwalk
    cases outcome with
    | error error =>
      rw [← (Prod.mk.inj (Option.some.inj hfinish)).2] at hpending
      exact hpending
    | ok =>
      rw [← (Prod.mk.inj (Option.some.inj hfinish)).2] at hpending
      simp at hpending
  rintro address account (hpending | hafter)
  · exact hbefore address account (.inl (hpendingKept address account hpending))
  · rcases hstored address with hsame | hcurrent
    · exact hbefore address account (.inr (hsame ▸ hafter))
    · rw [hcurrent, accounts, FiniteMap.lookup_union_or] at hafter
      cases hpending : s.pendingChanges.lookup address with
      | some found =>
        rw [hpending, Option.some_or] at hafter
        exact hbefore address account (.inl (hpending.trans hafter))
      | none =>
        rw [hpending, Option.none_or] at hafter
        exact hbefore address account (.inr hafter)

end State

namespace Chain

open State

variable {crypto : Crypto} {host : Host} {chain chain' : Chain} {block : Block} {accepted : Bool}
  {offered : Transaction → Prop}

/-- A processed transaction has its effect, or leaves a residue. -/
theorem advances_of_processTransaction {s s' : State} {tx : Transaction} {result : Except String Unit}
    (hoffered : offered tx) (h : processTransaction crypto s tx = (result, s')) :
    Advances crypto offered s s' := by
  unfold processTransaction at h
  split at h
  · obtain rfl := (Prod.mk.inj h).2
    exact .refl
  · rename_i hvalid
    cases result with
    | error error => exact .single (.residue hoffered hvalid (applyTransaction_error h))
    | ok =>
      obtain ⟨hnonce, s₁, heffect, rfl⟩ := applyTransaction_ok h
      exact .single (.effect hoffered hvalid hnonce heffect)

/-- The transactions of a block are processed up to the first that fails. -/
theorem advances_of_processTransactions {s s' : State} {txs : List Transaction}
    {result : Except String Unit} (hoffered : ∀ tx ∈ txs, offered tx)
    (h : processTransactions crypto s txs = (result, s')) : Advances crypto offered s s' := by
  induction txs generalizing s with
  | nil =>
    obtain rfl := (Prod.mk.inj h).2
    exact .refl
  | cons tx rest ih =>
    obtain ⟨hfirst, hrest⟩ := List.forall_mem_cons.mp hoffered
    rw [processTransactions] at h
    split at h
    · rename_i error next hprocess
      obtain rfl := (Prod.mk.inj h).2
      exact advances_of_processTransaction hfirst hprocess
    · rename_i next hprocess
      exact (advances_of_processTransaction hfirst hprocess).trans (ih hrest h)

/-- The management of the validators pays a refund at most. -/
theorem advances_manageValidators (chain : Chain) (block : Block) {tx : Transaction} (hoffered : offered tx) :
    Advances crypto offered chain.state (chain.manageValidators block tx).state := by
  unfold manageValidators
  cases hdata : tx.data with
  | unregisterValidator =>
    cases hresult : chain.validators.unregisterValidator tx.sender with
    | mk result validators =>
      cases result with
      | error error => exact .refl
      | ok stake => exact .single (.refund stake hoffered hdata)
  | _ => exact .refl

/-- Indexing the transactions of a block writes index records, and pays refunds. -/
theorem advances_indexTransactions (host : Host) (block : Block) {txs : List Transaction}
    (hoffered : ∀ tx ∈ txs, offered tx) (chain : Chain) :
    Advances crypto offered chain.state
      (txs.foldl (indexTransaction crypto host block) chain).state := by
  induction txs generalizing chain with
  | nil => exact .refl
  | cons tx rest ih =>
    obtain ⟨hfirst, hrest⟩ := List.forall_mem_cons.mp hoffered
    obtain ⟨storage, hstep, hindex⟩ := indexTransaction_frame crypto host block chain tx
    rw [List.foldl_cons]
    refine .trans ?_ (ih hrest _)
    rw [hstep]
    refine (advances_manageValidators chain block hfirst).trans (advances_write ?_)
    obtain ⟨txIndex, historyCount, history, rfl⟩ := hindex
    rfl

/-- A commit stores the pending accounts, or discards them. -/
theorem advances_of_commitBlock (hoffered : ∀ tx ∈ block.transactions, offered tx)
    (h : commitBlock crypto host chain block = some (accepted, chain')) :
    Advances crypto offered chain.state chain'.state := by
  have hstore : ∀ stored, Advances crypto offered chain.state (chain.withBlock stored block) :=
    fun stored => advances_write rfl
  cases commitOutcome_of_commitBlock h with
  | blockRefused head stored =>
    have hdiscarded : Advances crypto offered chain.state.discardChanges
        { chain.state.discardChanges with storage := { chain.state.storage with head := stored } } :=
      advances_write rfl
    exact .trans (.single .discard) hdiscarded
  | accountRefused head happly => exact (hstore _).tail (.commit happly)
  | @finished head stored heights state happly =>
    have hheights : Advances crypto offered state
        { state with storage := { state.storage with heights } } := advances_write rfl
    have hindexed := @advances_indexTransactions crypto offered host block _ hoffered
      { chain with head, state := { state with storage := { state.storage with heights } } }
    exact (((hstore _).tail (.commit happly)).trans hheights).trans hindexed

/-- Any delivery advances the ledger by the transactions of its block. -/
theorem state_advances_of_delivery (hoffered : ∀ tx ∈ block.transactions, offered tx)
    (h : Delivery crypto host chain block accepted chain') :
    Advances crypto offered chain.state chain'.state := by
  have hrecord : Advances crypto offered chain.state (chain.recordHeader host block).state := by
    obtain ⟨seenHeaders, headers, hframe⟩ := recordHeader_frame host chain block
    rw [hframe]
    exact advances_write rfl
  have hready := hrecord.tail .discard
  cases h with
  | orphan | equivocation => exact .refl
  | invalid => exact hrecord
  | failed _ _ _ hexec | mismatch _ _ _ hexec =>
    exact (hready.trans (advances_of_processTransactions hoffered hexec)).tail .discard
  | commit _ _ _ hexec _ hcommit =>
    exact (hready.trans (advances_of_processTransactions hoffered hexec)).trans
      (advances_of_commitBlock hoffered hcommit)

end Chain

end Nocostcoin
