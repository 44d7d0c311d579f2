import Nocostcoin.Node.Pool

/-!
# The faucet

A claim is granted only a day after the last recorded one of its address, and a granted claim is recorded
at once, so a day lies between any two claims of an address however the clock runs. The times of the clock
are those of `chrono`, whose years have at most six digits.
-/

namespace Nocostcoin

open Execution

/-- The value of a hexadecimal digit of either case, as the `hex` crate takes it. -/
def hexNibble (digit : UInt8) : Option UInt8 :=
  if 65 ≤ digit ∧ digit ≤ 70 then some (digit - 65 + 10)
  else if 97 ≤ digit ∧ digit ≤ 102 then some (digit - 97 + 10)
  else if 48 ≤ digit ∧ digit ≤ 57 then some (digit - 48)
  else none

/-- Two digits for each byte. -/
def hexPairs : Bytes → Option Bytes
  | [] => some []
  | [_] => none
  | high :: low :: rest => do
    let high ← hexNibble high
    let low ← hexNibble low
    let bytes ← hexPairs rest
    some ((high <<< 4 ||| low) :: bytes)

/-- `hex::decode`. -/
def hexDecode (text : String) : Option Bytes := hexPairs (asBytes text)

example : hexDecode "0aFf" = some [10, 255] := by decide +kernel

/-- A time in milliseconds that the clock can show: dates of `chrono` lie less than `2 ^ 53` milliseconds
from the epoch. -/
def IsClockTime (time : Int64) : Prop := -2 ^ 53 < time.toInt ∧ time.toInt < 2 ^ 53

instance (time : Int64) : Decidable (IsClockTime time) := inferInstanceAs (Decidable (_ ∧ _))

/-- A difference that fits is exact. -/
theorem toInt_sub_of_bounds {a b : Int64} (hlow : -2 ^ 63 ≤ a.toInt - b.toInt)
    (hhigh : a.toInt - b.toInt < 2 ^ 63) : (a - b).toInt = a.toInt - b.toInt := by
  rw [Int64.toInt_sub]
  exact Int.bmod_eq_of_le (by omega) (by omega)

/-- A sum that fits is exact. -/
theorem toInt_add_of_bounds {a b : Int64} (hlow : -2 ^ 63 ≤ a.toInt + b.toInt)
    (hhigh : a.toInt + b.toInt < 2 ^ 63) : (a + b).toInt = a.toInt + b.toInt := by
  rw [Int64.toInt_add]
  exact Int.bmod_eq_of_le (by omega) (by omega)

namespace Node

variable {crypto : Crypto} {schemes : KeySchemes} {config : NodeConfig} {node node' : Node}
  {commands : List NetworkCommand} {address : Bytes} {now last : Int64}

theorem toInt_cooldownMs : Storage.cooldownMs.toInt = 86400000 := by decide +kernel

/-- On times of the clock the test of `can_claim` is exact. -/
theorem canClaim_iff (hlast : node.claims.lookup address = some last)
    (hlow : -2 ^ 63 ≤ now.toInt - last.toInt) (hhigh : now.toInt - last.toInt < 2 ^ 63) :
    node.canClaim address now = true ↔ last.toInt + 86400000 ≤ now.toInt := by
  unfold canClaim Storage.canClaim
  rw [hlast]
  dsimp only
  rw [decide_eq_true_iff, Int64.le_iff_toInt_le, toInt_cooldownMs, toInt_sub_of_bounds hlow hhigh]
  omega

/-- The cooldown of an address at a time: the remaining time is positive, after it a claim is possible and
before that none. -/
def Waits (node : Node) (address : Bytes) (now : Int64) : Prop :=
  ∃ remaining, node.claimCooldownRemaining address now = some remaining ∧ 0 < remaining ∧
    node.canClaim address (now + remaining) = true ∧
    ∀ delay, 0 ≤ delay → delay < remaining → node.canClaim address (now + delay) = false

/-- The recorded claims were made at times of the clock. -/
def Clocked (claims : FiniteMap Bytes Int64) : Prop :=
  ∀ address time, claims.lookup address = some time → IsClockTime time

/-- Whoever may not claim has a time to wait. -/
theorem waits_of_not_canClaim (hclocked : Clocked node.claims) (hnow : IsClockTime now)
    (hrefused : node.canClaim address now = false) : node.Waits address now := by
  cases hlookup : node.claims.lookup address with
  | none =>
    rw [canClaim, hlookup] at hrefused
    contradiction
  | some last =>
    obtain ⟨hlow, hhigh⟩ := hclocked address last hlookup
    obtain ⟨hnowLow, hnowHigh⟩ := hnow
    have helapsed : (now - last).toInt = now.toInt - last.toInt :=
      toInt_sub_of_bounds (by omega) (by omega)
    have hearly : now.toInt < last.toInt + 86400000 := by
      by_contra hlate
      have hgranted : node.canClaim address now = true :=
        (canClaim_iff hlookup (by omega) (by omega)).mpr (by omega)
      rw [hrefused] at hgranted
      contradiction
    have hremaining : (Storage.cooldownMs - (now - last)).toInt = 86400000 - (now.toInt - last.toInt) := by
      rw [toInt_sub_of_bounds] <;> rw [toInt_cooldownMs, helapsed] <;> omega
    have hlater : ∀ delay : Int64, 0 ≤ delay.toInt → delay.toInt ≤ 2 ^ 60 →
        (node.canClaim address (now + delay) = true ↔
          last.toInt + 86400000 ≤ now.toInt + delay.toInt) := by
      intro delay hpositive hsmall
      have hsum := toInt_add_of_bounds (a := now) (b := delay) (by omega) (by omega)
      rw [canClaim_iff hlookup (by omega) (by omega), hsum]
    refine ⟨Storage.cooldownMs - (now - last), ?_, ?_, ?_, ?_⟩
    · unfold claimCooldownRemaining Storage.claimCooldownRemaining
      rw [hlookup]
      dsimp only
      rw [if_pos]
      rw [Int64.lt_iff_toInt_lt, toInt_cooldownMs, helapsed]
      omega
    · rw [Int64.lt_iff_toInt_lt, hremaining, Int64.toInt_zero]
      omega
    · rw [hlater _ (by omega) (by omega), hremaining]
      omega
    · intro delay hpositive hbefore
      rw [Int64.le_iff_toInt_le, Int64.toInt_zero] at hpositive
      rw [Int64.lt_iff_toInt_lt, hremaining] at hbefore
      rw [Bool.eq_false_iff, Ne, hlater delay hpositive (by omega)]
      omega

/-- A faucet request is refused and records nothing, or it is granted and its time is recorded. -/
theorem handleFaucet_cases (crypto : Crypto) (host : Host) (node : Node) (receiver : Option Bytes)
    (currentTime : Int64) :
    ((∀ hash, .reply (.ok hash) ∉ (node.handleFaucet crypto host receiver currentTime none).1) ∧
      (node.handleFaucet crypto host receiver currentTime none).2.claims = node.claims) ∨
    ∃ address, receiver = some address ∧ node.canClaim address currentTime = true ∧
      (node.handleFaucet crypto host receiver currentTime none).2.claims =
        node.claims.insert address currentTime := by
  unfold handleFaucet
  split
  · exact .inl ⟨by simp, rfl⟩
  · rename_i address
    split
    · exact .inl ⟨by simp, rfl⟩
    · split
      · exact .inl ⟨by simp, rfl⟩
      · rename_i hclaim
        dsimp only
        split
        · exact .inl ⟨by simp, rfl⟩
        · split <;> rename_i hadded <;> obtain ⟨-, rfl⟩ := Prod.mk.inj hadded
          · exact .inl ⟨by simp, rfl⟩
          · exact .inr ⟨address, rfl, not_not.mp hclaim, rfl⟩

/-- Publishing a transaction records no claim. -/
theorem claims_publish (crypto : Crypto) (node : Node) (tx : Transaction) :
    (node.publish crypto tx).2.claims = node.claims := by
  rw [publish_snd]
  rfl

/-- Submitting one records none. -/
theorem claims_submit (crypto : Crypto) (node : Node) (tx : Transaction) (onError : String → String) :
    (node.submit crypto tx onError).2.claims = node.claims := by
  rw [submit_snd]
  rfl

/-- Continuing a sync records no claim. -/
theorem claims_continueSync {received : Bool} (h : node.continueSync received = some (commands, node')) :
    node'.claims = node.claims := by
  unfold continueSync at h
  split at h
  · obtain ⟨height, -, hact⟩ := Option.bind_eq_some_iff.mp h
    split at hact
    · split at hact <;>
        · obtain ⟨-, rfl⟩ := Prod.mk.inj (Option.some.inj hact)
          rfl
    · obtain ⟨-, rfl⟩ := Prod.mk.inj (Option.some.inj hact)
      rfl
  · obtain ⟨-, rfl⟩ := Prod.mk.inj (Option.some.inj h)
    rfl

/-- A slot records no claim. -/
theorem claims_handleSlot {host : Host} {tick : Tick}
    (h : node.handleSlot crypto host tick = some (commands, node')) : node'.claims = node.claims := by
  have hsimulate : (simulate crypto host { node with lastSlot := tick.currentSlot } tick).2.claims =
      node.claims := by
    unfold simulate
    split
    · rfl
    · split
      · exact claims_publish ..
      · rfl
  unfold handleSlot at h
  split at h
  · generalize simulate crypto host { node with lastSlot := tick.currentSlot } tick = generated at h hsimulate
    obtain ⟨parent, -, hact⟩ := Option.bind_eq_some_iff.mp h
    rw [← hsimulate]
    split at hact
    · obtain ⟨⟨produced, next⟩, hproduce, hlast⟩ := Option.bind_eq_some_iff.mp hact
      obtain ⟨-, rfl⟩ := Prod.mk.inj (Option.some.inj hlast)
      obtain ⟨pruned, hprune, hadd⟩ := Option.bind_eq_some_iff.mp hproduce
      have hpruned : pruned.claims = generated.2.claims := by
        unfold prune at hprune
        split at hprune
        · obtain ⟨height, -, hdone⟩ := Option.bind_eq_some_iff.mp hprune
          dsimp only at hdone
          split at hdone <;>
            · rw [← Option.some.inj hdone]
        · rw [← Option.some.inj hprune]
      rw [← hpruned]
      obtain ⟨⟨accepted, chain⟩, -, hdone⟩ := Option.bind_eq_some_iff.mp hadd
      cases accepted <;>
        · obtain ⟨-, rfl⟩ := Prod.mk.inj (Option.some.inj hdone)
          rfl
    · obtain ⟨-, rfl⟩ := Prod.mk.inj (Option.some.inj hact)
      rfl
  · obtain ⟨-, rfl⟩ := Prod.mk.inj (Option.some.inj h)
    rfl

/-- Only faucet requests record claims. -/
theorem claims_handle {event : Event}
    (hother : ∀ host receiver currentTime recorded, event ≠ .faucet host receiver currentTime recorded)
    (h : node.handle crypto event = some (commands, node')) : node'.claims = node.claims := by
  cases event with
  | faucet host receiver currentTime recorded => exact absurd rfl (hother host receiver currentTime recorded)
  | chainInfo host peerId height headHash =>
    obtain ⟨ourHeight, -, hact⟩ := Option.bind_eq_some_iff.mp h
    split at hact <;>
      · obtain ⟨-, rfl⟩ := Prod.mk.inj (Option.some.inj hact)
        rfl
  | blocks peerId blocks =>
    rcases handleBlocks_cases h with ⟨error, chain', -, -, rfl⟩ | ⟨count, chain', syncManager, -, -, hcontinue⟩
    · rfl
    · exact (claims_continueSync hcontinue).trans rfl
  | incomingRequest peerId request channel =>
    cases request with
    | getChainInfo =>
      obtain ⟨height, -, hact⟩ := Option.bind_eq_some_iff.mp h
      obtain ⟨-, rfl⟩ := Prod.mk.inj (Option.some.inj hact)
      rfl
    | getBlocks startHash limit =>
      obtain ⟨-, rfl⟩ := Prod.mk.inj (Option.some.inj h)
      rfl
  | slot host tick => exact claims_handleSlot h
  | block host block =>
    obtain ⟨⟨accepted, chain⟩, -, hact⟩ := Option.bind_eq_some_iff.mp h
    cases accepted with
    | false =>
      obtain ⟨-, rfl⟩ := Prod.mk.inj (Option.some.inj hact)
      rfl
    | true =>
      obtain ⟨head, -, hvote⟩ := Option.bind_eq_some_iff.mp hact
      split at hvote <;>
        · obtain ⟨-, rfl⟩ := Prod.mk.inj (Option.some.inj hvote)
          rfl
  | send host receiver amount =>
    obtain rfl : (node.handleSend crypto host receiver amount).2 = node' :=
      congrArg Prod.snd (Option.some.inj h)
    cases receiver with
    | none => rfl
    | some receiver => exact claims_publish ..
  | createTransaction host receiver amount =>
    obtain rfl : (node.handleCreate crypto host receiver amount).2 = node' :=
      congrArg Prod.snd (Option.some.inj h)
    cases receiver with
    | none => rfl
    | some receiver => exact claims_submit ..
  | submitTransaction tx =>
    obtain rfl : (node.submit crypto tx fun _ => "Failed to add transaction to mempool").2 = node' :=
      congrArg Prod.snd (Option.some.inj h)
    exact claims_submit ..
  | registerValidator stake =>
    obtain rfl : (node.handleRegister crypto stake).2 = node' := congrArg Prod.snd (Option.some.inj h)
    unfold handleRegister
    split
    · rfl
    · exact claims_submit ..
  | vote | peerConnected | peerDisconnected | peerIdentified | toggleSim | transaction | setWallet =>
    obtain ⟨-, rfl⟩ := Prod.mk.inj (Option.some.inj h)
    rfl

/-- A restart keeps the recorded claims. -/
theorem claims_boot {host : Host} {storage : Storage} {claims : FiniteMap Bytes Int64}
    (h : boot crypto schemes host storage config claims = some node) : node.claims = claims := by
  obtain ⟨chain, -, hrest⟩ := Option.bind_eq_some_iff.mp h
  obtain ⟨⟨result, state⟩, -, hnode⟩ := Option.bind_eq_some_iff.mp hrest
  rw [← Option.some.inj hnode]

/-- The time of a faucet request is one of the clock, and the database takes its record. -/
def Operation.RecordsClaims (operation : Operation) : Prop :=
  ∀ host receiver time recorded, operation = .event (.faucet host receiver time recorded) →
    IsClockTime time ∧ recorded = none

/-- A call is a successful claim at a time, for an address in some spelling. -/
def Grants (call : Call Node Operation (List NetworkCommand)) (text : String) (time : Int64) : Prop :=
  ∃ host recorded, call.label = .event (.faucet host (hexDecode text) time recorded) ∧
    ∃ hash, .reply (.ok hash) ∈ call.output

/-- What an operation does to the recorded claims: nothing, or it grants a claim and records it. -/
theorem claims_of_operate {operation : Operation} (hrecords : operation.RecordsClaims)
    (h : operate crypto schemes config node operation = some (commands, node')) :
    ((∀ text time, ¬ Grants ⟨node, operation, commands, node'⟩ text time) ∧ node'.claims = node.claims) ∨
      ∃ host address time, operation = .event (.faucet host (some address) time none) ∧
        IsClockTime time ∧ node.canClaim address time = true ∧
        node'.claims = node.claims.insert address time := by
  cases operation with
  | restart host =>
    obtain ⟨restarted, hboot, hsome⟩ := Option.map_eq_some_iff.mp h
    obtain ⟨-, rfl⟩ := Prod.mk.inj hsome
    refine .inl ⟨?_, claims_boot hboot⟩
    rintro text time ⟨host', recorded, hlabel, -⟩
    cases hlabel
  | event event =>
    by_cases hfaucet : ∃ host receiver time recorded, event = .faucet host receiver time recorded
    · obtain ⟨host, receiver, time, recorded, rfl⟩ := hfaucet
      obtain ⟨hclock, rfl⟩ := hrecords host receiver time recorded rfl
      have hhandle : node.handleFaucet crypto host receiver time none = (commands, node') :=
        Option.some.inj h
      have hcases := handleFaucet_cases crypto host node receiver time
      rw [hhandle] at hcases
      rcases hcases with ⟨hrefused, hsame⟩ | ⟨address, rfl, hclaim, hrecorded⟩
      · refine .inl ⟨?_, hsame⟩
        rintro text time' ⟨-, -, -, hash, hreply⟩
        exact hrefused hash hreply
      · exact .inr ⟨host, address, time, rfl, hclock, hclaim, hrecorded⟩
    · refine .inl ⟨?_, claims_handle (fun host receiver time recorded heq =>
        hfaucet ⟨host, receiver, time, recorded, heq⟩) h⟩
      rintro text time ⟨host, recorded, hlabel, -⟩
      exact hfaucet ⟨host, hexDecode text, time, recorded, Operation.event.inj hlabel⟩

/-- Between two successful claims for an address, however it is spelled, the clock advances by a day. -/
def RateLimited (calls : List (Call Node Operation (List NetworkCommand))) : Prop :=
  ∀ before second after, calls = before ++ second :: after → ∀ first ∈ before,
    ∀ text text' address time time', hexDecode text = some address → hexDecode text' = some address →
      Grants first text time → Grants second text' time' →
        time < time' ∧ time.toInt + 86400000 ≤ time'.toInt

/-- The record of an address is not older than its successful claims. -/
def Remembers (calls : List (Call Node Operation (List NetworkCommand))) (node : Node) : Prop :=
  ∀ call ∈ calls, ∀ text address time, hexDecode text = some address → Grants call text time →
    ∃ last, node.claims.lookup address = some last ∧ time.toInt ≤ last.toInt

/-- The records are times of the clock and not older than the claims, which keep their distance. -/
structure Limited (calls : List (Call Node Operation (List NetworkCommand))) (node : Node) : Prop where
  clocked : Clocked node.claims
  remembers : Remembers calls node
  limited : RateLimited calls

variable {calls : List (Call Node Operation (List NetworkCommand))} {operation : Operation} {host : Host}
  {time : Int64}

/-- Before the first call only the records matter. -/
theorem limited_nil (hclocked : Clocked node.claims) : Limited [] node where
  clocked := hclocked
  remembers _ hcall := absurd hcall List.not_mem_nil
  limited := by
    rintro before second after hsplit
    exact absurd hsplit.symm (List.append_ne_nil_of_right_ne_nil _ (List.cons_ne_nil _ _))

/-- A call that grants nothing keeps it so. -/
theorem Limited.idle (h : Limited calls node) (hsame : node'.claims = node.claims)
    (hnone : ∀ text time, ¬ Grants ⟨node, operation, commands, node'⟩ text time) :
    Limited (calls ++ [⟨node, operation, commands, node'⟩]) node' where
  clocked := hsame ▸ h.clocked
  remembers := by
    intro call hmem text address time htext hgrants
    rw [hsame]
    rcases List.mem_append.mp hmem with hold | hnew
    · exact h.remembers call hold text address time htext hgrants
    · rw [List.mem_singleton.mp hnew] at hgrants
      exact absurd hgrants (hnone text time)
  limited := by
    refine forall_calls_snoc.mpr ⟨h.limited, ?_⟩
    intro first _ text text' address time time' _ _ _ hgrants
    exact absurd hgrants (hnone text' time')

/-- A granted claim comes a day after every earlier one of its address. -/
theorem Limited.day_after (h : Limited calls node) (hclock : IsClockTime time)
    (hclaim : node.canClaim address time = true) {first : Call Node Operation (List NetworkCommand)}
    (hfirst : first ∈ calls) {text : String} {earlier : Int64} (htext : hexDecode text = some address)
    (hgrants : Grants first text earlier) : earlier.toInt + 86400000 ≤ time.toInt := by
  obtain ⟨last, hlookup, hle⟩ := h.remembers first hfirst text address earlier htext hgrants
  obtain ⟨hlow, hhigh⟩ := h.clocked address last hlookup
  obtain ⟨htimeLow, htimeHigh⟩ := hclock
  have hday := (canClaim_iff hlookup (by omega) (by omega)).mp hclaim
  omega

/-- What a request grants is the claim of its address at its time. -/
theorem eq_of_grants {text : String} {other : Bytes} {time' : Int64} (htext : hexDecode text = some other)
    (hgrants : Grants ⟨node, .event (.faucet host (some address) time none), commands, node'⟩ text time') :
    other = address ∧ time' = time := by
  obtain ⟨host', recorded, hlabel, -⟩ := hgrants
  obtain ⟨-, hreceiver, htime, -⟩ := Event.faucet.inj (Operation.event.inj hlabel)
  rw [htext] at hreceiver
  exact ⟨(Option.some.inj hreceiver).symm, htime.symm⟩

/-- A call that grants a claim and records it keeps it so. -/
theorem Limited.grant (h : Limited calls node) (hclock : IsClockTime time)
    (hclaim : node.canClaim address time = true)
    (hinserted : node'.claims = node.claims.insert address time) :
    Limited (calls ++ [⟨node, .event (.faucet host (some address) time none), commands, node'⟩]) node' where
  clocked := by
    intro other last hlookup
    rw [hinserted, FiniteMap.lookup_insert_ite] at hlookup
    split at hlookup
    · rw [← Option.some.inj hlookup]
      exact hclock
    · exact h.clocked other last hlookup
  remembers := by
    intro call hmem text other earlier htext hgrants
    rw [hinserted, FiniteMap.lookup_insert_ite]
    rcases List.mem_append.mp hmem with hold | hlabel
    · split
      · rename_i hother
        have hgap := h.day_after hclock hclaim hold (hother ▸ htext) hgrants
        exact ⟨time, rfl, by omega⟩
      · exact h.remembers call hold text other earlier htext hgrants
    · rw [List.mem_singleton.mp hlabel] at hgrants
      obtain ⟨rfl, rfl⟩ := eq_of_grants htext hgrants
      exact ⟨earlier, if_pos rfl, le_rfl⟩
  limited := by
    refine forall_calls_snoc.mpr ⟨h.limited, ?_⟩
    intro first hfirst text text' other earlier time' htext htext' hfirstGrants hgrants
    obtain ⟨rfl, rfl⟩ := eq_of_grants htext' hgrants
    have hgap := h.day_after hclock hclaim hfirst htext hfirstGrants
    exact ⟨Int64.lt_iff_toInt_lt.mpr (by omega), hgap⟩

/-- A run keeps it so. -/
theorem limited_of_run {booted : Node} (hbooted : Clocked booted.claims)
    (hrun : Run (operate crypto schemes config) booted calls node)
    (hrecords : ∀ call ∈ calls, call.label.RecordsClaims) : Limited calls node := by
  induction hrun with
  | nil => exact limited_nil hbooted
  | @snoc calls node node' operation commands hrun hcall ih =>
    have hbefore := ih fun call hmem => hrecords call (List.mem_append_left _ hmem)
    have hlast := hrecords _ (List.mem_append_right calls (List.mem_singleton_self _))
    rcases claims_of_operate hlast hcall with ⟨hnone, hsame⟩ | ⟨host, address, time, rfl, hclock, hclaim, hinserted⟩
    · exact hbefore.idle hsame hnone
    · exact hbefore.grant hclock hclaim hinserted

/-- In every run of events and restarts, where the database takes the records of claims: a day lies between
any two successful claims for one address, and whoever may not claim has a time to wait after which a claim
is possible, and before which none is. -/
theorem faucet_rate_limited {booted : Node} {calls : List (Call Node Operation (List NetworkCommand))}
    (hbooted : Clocked booted.claims) (hrun : Run (operate crypto schemes config) booted calls node)
    (hrecords : ∀ call ∈ calls, call.label.RecordsClaims) :
    RateLimited calls ∧
      ∀ address now, IsClockTime now → node.canClaim address now = false → node.Waits address now := by
  have hlimited := limited_of_run hbooted hrun hrecords
  exact ⟨hlimited.limited, fun address now hnow => waits_of_not_canClaim hlimited.clocked hnow⟩

/-- A faucet request at a time for the address of 32 equal bytes, in some spelling of the byte. -/
def claimRequest (spelling : List Char) (time : Int64) : Operation :=
  .event (.faucet Host.plain (hexDecode (String.ofList (List.replicate 32 spelling).flatten)) time none)

/-- Three requests for one address: the second a millisecond before the day is over. -/
def claimRequests : List Operation :=
  [claimRequest ['a', 'b'] 1000, claimRequest ['A', 'B'] 86400999, claimRequest ['A', 'b'] 86401000]

/-- The first and the third are granted, which the second one is not. -/
theorem faucet_rate_limited_spellings :
    ∃ booted calls node, Sample.booted (some "first") = some booted ∧
      Run (operate Crypto.plain KeySchemes.plain (Sample.config (some "first"))) booted calls node ∧
      calls.map Call.label = claimRequests ∧
      calls.map (fun call => call.output.length) = [2, 1, 2] ∧ RateLimited calls ∧
      ∀ address now, IsClockTime now → node.canClaim address now = false → node.Waits address now := by
  obtain ⟨booted, calls, node, hbooted, hrun, hlabels, hcheck⟩ := Run.exists_of_trace_from
    (operate Crypto.plain KeySchemes.plain (Sample.config (some "first"))) (Sample.booted (some "first"))
    claimRequests (fun _ calls _ => decide (calls.map (fun call => call.output.length) = [2, 1, 2]))
    (by decide +kernel)
  have hempty : booted.claims = ∅ := claims_boot hbooted
  have hrecords : ∀ call ∈ calls, call.label.RecordsClaims := by
    intro call hcall host receiver time recorded hlabel
    have hmem : call.label ∈ claimRequests := hlabels ▸ List.mem_map_of_mem hcall
    rw [hlabel] at hmem
    simp only [claimRequests, claimRequest, List.mem_cons, Operation.event.injEq, Event.faucet.injEq,
      List.not_mem_nil, or_false] at hmem
    rcases hmem with ⟨-, -, rfl, rfl⟩ | ⟨-, -, rfl, rfl⟩ | ⟨-, -, rfl, rfl⟩ <;> decide +kernel
  exact ⟨booted, calls, node, hbooted, hrun, hlabels, of_decide_eq_true hcheck,
    faucet_rate_limited (by simp [Clocked, hempty]) hrun hrecords⟩

end Node

end Nocostcoin
