import Nocostcoin.Network.Slashing

/-!
# Restarts are harmless while headers are written

A node that starts again counts its slots from the beginning, so slots alone no longer keep its blocks
apart. Its own database does: a block leaves the node only after its header was put on record there, and
while no header is refused by a database, the record outlives every restart. Other nodes then never see
two blocks of it for one slot.
-/

namespace Nocostcoin

open Execution

/-- The database accepts every header. -/
def Host.KeepsHeaders (host : Host) : Prop :=
  ∀ slot pubkey hash, host.disk (.header slot pubkey hash) = none

namespace Chain

variable {crypto : Crypto} {host : Host} {met : Host → Prop} {offered : Block → Prop}
  {cast : Vote → Prop} {chain chain' : Chain} {block : Block} {accepted : Bool} {slot : UInt64}
  {pubkey : Bytes} {hash : String}

/-- Memory and disk hold the same headers if these were not touched. -/
theorem HeadersOnDisk.congr (h : chain.HeadersOnDisk) (hseen : chain'.seenHeaders = chain.seenHeaders)
    (hheaders : chain'.storage.headers = chain.storage.headers) : chain'.HeadersOnDisk := by
  unfold HeadersOnDisk Storage.getSeenHeader at h ⊢
  rw [hseen, hheaders]
  exact h

/-- What is on record is on disk. -/
theorem HeadersOnDisk.getSeenHeader (h : chain.HeadersOnDisk) (hrecord : chain.OnRecord slot pubkey hash) :
    chain.storage.getSeenHeader slot pubkey = some hash :=
  hrecord.elim (h slot pubkey hash) id

/-- The recording of a header keeps it so, if the database takes the header. -/
theorem HeadersOnDisk.recordHeader (h : chain.HeadersOnDisk) (hkeeps : host.KeepsHeaders) (block : Block) :
    (chain.recordHeader host block).HeadersOnDisk := by
  unfold Chain.recordHeader
  split
  · exact h
  · intro slot pubkey hash hseen
    unfold logged Storage.storeSeenHeader Storage.write
    rw [hkeeps]
    change (chain.storage.headers.insert (block.header.slot, block.header.validatorPubkey)
      block.hash).lookup (slot, pubkey) = some hash
    have hmemory : (chain.seenHeaders.insert (block.header.slot, block.header.validatorPubkey)
      block.hash).lookup (slot, pubkey) = some hash := hseen
    rw [FiniteMap.lookup_insert_ite] at hmemory ⊢
    split at hmemory
    · rename_i heq
      rw [if_pos heq]
      exact hmemory
    · rename_i hne
      rw [if_neg hne]
      exact h slot pubkey hash hmemory

/-- So does a delivery. -/
theorem HeadersOnDisk.delivery (h : chain.HeadersOnDisk) (hkeeps : host.KeepsHeaders)
    (hdelivery : Delivery crypto host chain block accepted chain') : chain'.HeadersOnDisk := by
  have hrecorded := h.recordHeader hkeeps block
  cases hdelivery with
  | orphan => exact h
  | equivocation => exact h.congr rfl rfl
  | invalid => exact hrecorded
  | failed _ _ _ hexec | mismatch _ _ _ hexec =>
    have hstorage := storage_of_execution hexec
    exact hrecorded.congr rfl (congrArg Storage.headers hstorage)
  | commit _ _ _ hexec _ hcommit =>
    have hframe := commitBlock_frame hcommit
    exact hrecorded.congr hframe.seenHeaders
      (hframe.headers.trans (congrArg Storage.headers (storage_of_execution hexec)))

/-- And everything else that a node does to its chain. -/
theorem Acts.headersOnDisk (hacts : Acts crypto met offered cast chain chain')
    (hkeeps : ∀ host, met host → host.KeepsHeaders) (h : chain.HeadersOnDisk) : chain'.HeadersOnDisk := by
  induction hacts with
  | refl => exact h
  | @tail before after _ hact ih =>
    cases hact with
    | deliver hmet _ hadd => exact ih.delivery (hkeeps _ hmet) (delivery_of_addBlock hadd)
    | @vote host added _ _ =>
      obtain ⟨votes, stored, finalizedHead, hframe⟩ := addVote_frame crypto host before added
      rw [hframe]
      exact ih.congr rfl rfl
    | prune eraser target =>
      obtain ⟨blocks, heights, hframe⟩ := (before.storage.prune_frame eraser target before.head).1
      rw [hframe]
      exact ih.congr rfl rfl

end Chain

namespace Network

variable {deployment : Deployment} {network network' : Network} {peer : Bytes} {node node' : Node}
  {made : Option Block}

/-- The databases that the action hands blocks and votes to accept every header. -/
def KeepsHeaders (network : Network) (action : Action) : Prop :=
  ∀ peer event, network.arrival action = some (peer, event) → ∀ host, event.meets host →
    host.KeepsHeaders

/-- Whatever is known in the name of a node, apart from the genesis block, is on that node's own disk, and
no node has slashed another one. -/
structure Booked (deployment : Deployment) (network : Network) : Prop where
  keys : Keyed deployment network
  onDisk : ∀ peer node, network.nodes.lookup peer = some node → node.chain.HeadersOnDisk
  genesis : ∀ other config, deployment.peers.lookup other = some config → ∀ hash,
    network.Knows deployment.genesisBlock 0 (config.validatorKey deployment.schemes) hash →
    hash = deployment.genesisBlock.hash
  own : ∀ other config, deployment.peers.lookup other = some config → ∀ slot hash, slot ≠ 0 →
    network.Knows deployment.genesisBlock slot (config.validatorKey deployment.schemes) hash →
    ∃ node, network.nodes.lookup other = some node ∧
      node.chain.storage.getSeenHeader slot (config.validatorKey deployment.schemes) = some hash
  unslashed : ∀ peer node, network.nodes.lookup peer = some node →
    ∀ other config, deployment.peers.lookup other = some config → other ≠ peer →
      node.chain.validators.isSlashed (config.validatorKey deployment.schemes) = false

/-- So one hash is known for a slot in the name of a node. -/
theorem Booked.unique (hbooked : Booked deployment network) {other : Bytes} {config : NodeConfig}
    {slot : UInt64} {hash hash' : String} (hconfig : deployment.peers.lookup other = some config)
    (h : network.Knows deployment.genesisBlock slot (config.validatorKey deployment.schemes) hash)
    (h' : network.Knows deployment.genesisBlock slot (config.validatorKey deployment.schemes) hash') :
    hash = hash' := by
  by_cases hslot : slot = 0
  · subst hslot
    rw [hbooked.genesis other config hconfig hash h, hbooked.genesis other config hconfig hash' h']
  · obtain ⟨node, hnode, hheader⟩ := hbooked.own other config hconfig slot hash hslot h
    obtain ⟨node', hnode', hheader'⟩ := hbooked.own other config hconfig slot hash' hslot h'
    obtain rfl := Option.some.inj (hnode.symm.trans hnode')
    exact Option.some.inj (hheader.symm.trans hheader')

/-- Before anything happens nothing has to be booked. -/
theorem booked_empty (deployment : Deployment) : Booked deployment empty where
  keys := keyed_empty deployment
  onDisk peer node h := by simp [empty] at h
  genesis other config _ hash h := (knows_empty h).2
  own other config _ slot hash hslot h := absurd (knows_empty h).1 hslot
  unslashed peer node h := by simp [empty] at h

/-- What a turn makes known in the name of a node was known before, or it is the turn of that node, which
has it on record. -/
theorem knows_of_turn {turn : Turn} {other : Bytes} {config : NodeConfig} {slot : UInt64} {hash : String}
    (hdistinct : deployment.DistinctKeys) (hbooked : Booked deployment network)
    (h : TurnTaken deployment network turn node node' network')
    (hbrings : ∀ block ∈ turn.event.brings, network.Circulates block)
    (hexchanges : node.Exchanges deployment.crypto turn.event made turn.commands node')
    (hconfig : deployment.peers.lookup other = some config)
    (hknows : network'.Knows deployment.genesisBlock slot (config.validatorKey deployment.schemes) hash) :
    network.Knows deployment.genesisBlock slot (config.validatorKey deployment.schemes) hash ∨
      other = turn.peer ∧ slot ≠ 0 ∧
        node'.chain.OnRecord slot (config.validatorKey deployment.schemes) hash := by
  have hmade : ∀ {block : Block}, made = some block →
      block.header.validatorPubkey = config.validatorKey deployment.schemes →
      other = turn.peer ∧ block.header.slot ≠ 0 := by
    intro block hmade hname
    refine ⟨hbooked.keys.maker hdistinct h hexchanges hconfig hmade hname, fun hzero => ?_⟩
    have hafter := (hexchanges.fresh block hmade).1
    rw [hzero] at hafter
    exact Nat.not_lt_zero _ hafter
  rcases hknows with ⟨block, hknown, rfl, hname, rfl⟩ | ⟨holder, running, hrunning, hrecord⟩
  · rcases hknown with hgenesis | hcirculates
    · exact .inl (.inl ⟨block, .inl hgenesis, rfl, hname, rfl⟩)
    · rcases h.circulates hbrings hexchanges hcirculates with hold | ⟨hnew, hexisting⟩
      · exact .inl (.inl ⟨block, .inr hold, rfl, hname, rfl⟩)
      · obtain ⟨hother, hslot⟩ := hmade hnew hname
        rw [hname] at hexisting
        exact .inr ⟨hother, hslot, Chain.onRecord_of_existingHash hexisting⟩
  · rw [h.lookup] at hrunning
    split at hrunning
    · obtain rfl := Option.some.inj hrunning
      rcases hexchanges.acts.onRecord hrecord with hold | ⟨block, hbrought | hnew, rfl, hname, rfl⟩
      · exact .inl (.inr ⟨turn.peer, node, h.running, hold⟩)
      · exact .inl (.inl ⟨block, .inr (hbrings block hbrought), rfl, hname, rfl⟩)
      · obtain ⟨hother, hslot⟩ := hmade hnew hname
        exact .inr ⟨hother, hslot, hrecord⟩
    · exact .inl (.inr ⟨holder, running, hrunning, hrecord⟩)

/-- The turn of a node keeps the books, if its database takes the headers. -/
theorem booked_of_turn {turn : Turn} (hdistinct : deployment.DistinctKeys)
    (hbooked : Booked deployment network)
    (h : TurnTaken deployment network turn node node' network')
    (hbrings : ∀ block ∈ turn.event.brings, network.Circulates block)
    (hkeeps : ∀ host, turn.event.meets host → host.KeepsHeaders) : Booked deployment network' := by
  obtain ⟨made, hexchanges⟩ := Node.exchanges_of_handle h.handled
  have honDisk := hexchanges.acts.headersOnDisk hkeeps (hbooked.onDisk turn.peer node h.running)
  constructor
  case keys => exact hbooked.keys.turn h hexchanges
  case onDisk =>
    intro peer running hrunning
    rw [h.lookup] at hrunning
    split at hrunning
    · obtain rfl := Option.some.inj hrunning
      exact honDisk
    · exact hbooked.onDisk peer running hrunning
  case genesis =>
    intro other config hconfig hash hknows
    rcases knows_of_turn hdistinct hbooked h hbrings hexchanges hconfig hknows with hold | ⟨-, hslot, -⟩
    · exact hbooked.genesis other config hconfig hash hold
    · exact absurd rfl hslot
  case own =>
    intro other config hconfig slot hash hslot hknows
    rcases knows_of_turn hdistinct hbooked h hbrings hexchanges hconfig hknows with hold | ⟨rfl, -, hrecord⟩
    · obtain ⟨own, hown, hheader⟩ := hbooked.own other config hconfig slot hash hslot hold
      by_cases hpeer : other = turn.peer
      · -- the node's own book only grows
        subst hpeer
        obtain rfl := Option.some.inj (hown.symm.trans h.running)
        have hexisting : own.chain.existingHash slot (config.validatorKey deployment.schemes) =
            some hash := by
          unfold Chain.existingHash
          cases hseen : own.chain.seenHeaders.lookup (slot, config.validatorKey deployment.schemes) with
          | none => exact hheader
          | some seen =>
            have hsame := hbooked.onDisk _ own h.running slot _ seen hseen
            rw [Option.some.inj (hsame.symm.trans hheader)]
            rfl
        refine ⟨node', by rw [h.lookup, if_pos rfl], honDisk.getSeenHeader ?_⟩
        exact Chain.onRecord_of_existingHash (hexchanges.acts.existingHash hexisting)
      · exact ⟨own, by rw [h.lookup, if_neg hpeer]; exact hown, hheader⟩
    · exact ⟨node', by rw [h.lookup, if_pos rfl], honDisk.getSeenHeader hrecord⟩
  case unslashed =>
    intro peer running hrunning other config hconfig hne
    rw [h.lookup] at hrunning
    split at hrunning
    · rename_i hpeer
      obtain rfl := Option.some.inj hrunning
      have hbrought : ∀ {block : Block}, (block ∈ turn.event.brings ∨ made = some block) →
          block.header.validatorPubkey = config.validatorKey deployment.schemes →
          network.Circulates block := by
        rintro block (hbrought | hmade) hname
        · exact hbrings block hbrought
        · have hself := hbooked.keys.maker hdistinct h hexchanges hconfig hmade hname
          exact absurd (hself.trans hpeer.symm) hne
      rw [← Bool.not_eq_true]
      intro hslashed
      rcases hexchanges.acts.isSlashed hslashed with
        hbefore | ⟨block, existing, hoffered, hname, hdiffers, hother⟩
      · rw [hbooked.unslashed turn.peer node h.running other config hconfig (hpeer ▸ hne)] at hbefore
        contradiction
      · have hexisting : network.Knows deployment.genesisBlock block.header.slot
            (config.validatorKey deployment.schemes) existing := by
          rcases hother with hrecord | ⟨second, hsecond, hslot, hname', rfl⟩
          · exact .inr ⟨turn.peer, node, h.running, hrecord⟩
          · exact .inl ⟨second, .inr (hbrought hsecond hname'), hslot, hname', rfl⟩
        exact hdiffers (hbooked.unique hconfig hexisting
          (.inl ⟨block, .inr (hbrought hoffered hname), rfl, hname, rfl⟩))
    · exact hbooked.unslashed peer running hrunning other config hconfig hne

/-- What strangers send leaves the books alone, if no block of it is in the name of a node. -/
theorem booked_of_sent (hbooked : Booked deployment network) (hnodes : network'.nodes = network.nodes)
    (hcirculates : ∀ block, network'.Circulates block →
      network.Circulates block ∨ Foreign deployment block) : Booked deployment network' := by
  constructor
  case keys =>
    unfold Keyed
    rw [hnodes]
    exact hbooked.keys
  case onDisk => exact hnodes ▸ hbooked.onDisk
  case genesis =>
    intro other config hconfig hash hknows
    exact hbooked.genesis other config hconfig hash (knows_of_sent hnodes hcirculates hconfig hknows)
  case own =>
    intro other config hconfig slot hash hslot hknows
    rw [hnodes]
    exact hbooked.own other config hconfig slot hash hslot
      (knows_of_sent hnodes hcirculates hconfig hknows)
  case unslashed => exact hnodes ▸ hbooked.unslashed

/-- A start finds the book that the node left. -/
theorem booked_of_boot {config : NodeConfig} (hbooked : Booked deployment network)
    (hconfig : deployment.peers.lookup peer = some config)
    (hstarted : Started deployment config (network.disk peer).1 node) :
    Booked deployment { network with nodes := network.nodes.insert peer node } := by
  constructor
  case keys => exact hbooked.keys.boot hconfig hstarted
  case onDisk =>
    intro other running hrunning
    dsimp only at hrunning
    rw [lookup_booted] at hrunning
    split at hrunning
    · obtain rfl := Option.some.inj hrunning
      intro slot pubkey hash hseen
      rw [hstarted.seenHeaders] at hseen
      simp at hseen
    · exact hbooked.onDisk other running hrunning
  case genesis =>
    intro other config' hother hash hknows
    exact hbooked.genesis other config' hother hash (knows_of_boot hstarted hknows)
  case own =>
    intro other config' hother slot hash hslot hknows
    obtain ⟨own, hown, hheader⟩ :=
      hbooked.own other config' hother slot hash hslot (knows_of_boot hstarted hknows)
    dsimp only
    rw [lookup_booted]
    split
    · rename_i heq
      have hdisk : (network.disk peer).1 = own.chain.storage := by
        unfold disk
        rw [← heq, hown]
      refine ⟨node, rfl, ?_⟩
      unfold Storage.getSeenHeader
      rw [hstarted.headers, hdisk]
      exact hheader
    · exact ⟨own, hown, hheader⟩
  case unslashed =>
    intro other running hrunning name config' hname hne
    dsimp only at hrunning
    rw [lookup_booted] at hrunning
    split at hrunning
    · obtain rfl := Option.some.inj hrunning
      exact hstarted.unslashed _
    · exact hbooked.unslashed other running hrunning name config' hname hne

/-- An action without forgery on databases that take the headers keeps the books. -/
theorem booked_of_act {action : Action} {output : Option Turn} (hdistinct : deployment.DistinctKeys)
    (hbooked : Booked deployment network)
    (hunforged : Unforged deployment action) (hkeeps : network.KeepsHeaders action)
    (h : act deployment network action = some (output, network')) : Booked deployment network' := by
  cases outcome_of_act h with
  | booted hconfig hboot =>
    exact booked_of_boot hbooked hconfig (started_of_boot (deployment.genesis_eq _ _ hconfig) hboot)
  | published message =>
    exact booked_of_sent hbooked rfl fun block hafter => circulates_of_publish hunforged hafter
  | asked envelope => exact booked_of_sent hbooked rfl fun block hafter => .inl hafter
  | answered envelope =>
    exact booked_of_sent hbooked rfl fun block hafter => circulates_of_answer hunforged hafter
  | turn harrival htaken =>
    exact booked_of_turn hdistinct hbooked htaken
      (fun block hbrings => circulates_of_arrival harrival hbrings) (hkeeps _ _ harrival)

/-- In every run of a network with any restarts, whose nodes have different validator keys, in which no
stranger sends blocks in the name of a node and no header is refused by a database: no node slashes another
one, and of each node one block for a slot circulates at most, up to its hash. -/
theorem restarts_harmless {calls : List (Call Network Action (Option Turn))}
    (hdistinct : deployment.DistinctKeys) (hrun : Run (act deployment) empty calls network)
    (hunforged : ∀ call ∈ calls, Unforged deployment call.label)
    (hkeeps : ∀ call ∈ calls, call.pre.KeepsHeaders call.label) :
    (∀ peer node, network.nodes.lookup peer = some node →
      ∀ other config, deployment.peers.lookup other = some config → other ≠ peer →
        node.chain.validators.isSlashed (config.validatorKey deployment.schemes) = false) ∧
    ∀ other config, deployment.peers.lookup other = some config →
      ∀ block block', network.Circulates block → network.Circulates block' →
        block.header.validatorPubkey = config.validatorKey deployment.schemes →
        block'.header.validatorPubkey = config.validatorKey deployment.schemes →
        block.header.slot = block'.header.slot → block.hash = block'.hash := by
  have hbooked : Booked deployment network :=
    Run.invariant (Booked deployment)
      (fun before action => Unforged deployment action ∧ before.KeepsHeaders action)
      (booked_empty deployment)
      (fun _ _ _ _ hbefore hadmitted hact =>
        booked_of_act hdistinct hbefore hadmitted.1 hadmitted.2 hact) hrun
      fun call hcall => ⟨hunforged call hcall, hkeeps call hcall⟩
  refine ⟨hbooked.unslashed, ?_⟩
  intro other config hconfig block block' hblock hblock' hname hname' hslot
  exact hbooked.unique hconfig (.inl ⟨block, .inr hblock, rfl, hname, rfl⟩)
    (.inl ⟨block', .inr hblock', hslot.symm, hname', rfl⟩)

/-- The first node makes a block in slot three, starts again, and takes its own block from the second. -/
def restartedActions : List Action :=
  [.boot [1] Host.plain, .boot [2] Host.plain, .own [1] (.slot Host.plain (Sample.tick 3)),
    .gossip [2] Host.plain 0, .boot [1] Host.plain, .own [1] (.slot Host.plain (Sample.tick 3)),
    .gossip [1] Host.plain 0]

/-- The second node has the block of the first, which it has not slashed. -/
theorem restarts_harmless_restarted :
    ∃ calls network node, Run (act Sample.deployment) empty calls network ∧
      calls.map Call.label = restartedActions ∧ network.nodes.lookup [2] = some node ∧
      node.chain.getHeight = some 3 ∧
      node.chain.validators.isSlashed (generateValidatorKeypair KeySchemes.plain "first") = false := by
  obtain ⟨calls, network, hrun, hlabels, hcheck⟩ := Run.exists_of_trace (act Sample.deployment) empty
    restartedActions (fun _ network => (network.nodes.lookup [2]).any
      fun node : Node => decide (node.chain.getHeight = some 3)) (by decide +kernel)
  obtain ⟨node, hnode, hheight⟩ := (Option.any_eq_true _ _).mp hcheck
  have hmem : ∀ call ∈ calls, call.label ∈ restartedActions :=
    fun call hcall => hlabels ▸ List.mem_map_of_mem hcall
  have hunforged : ∀ call ∈ calls, Unforged Sample.deployment call.label := by
    intro call hcall
    have hlabel := hmem call hcall
    generalize call.label = action at hlabel
    cases action with
    | publish message => simp [restartedActions] at hlabel
    | answer envelope => simp [restartedActions] at hlabel
    | _ => trivial
  have hplain : ∀ call ∈ calls, call.pre.KeepsHeaders call.label := by
    intro call hcall peer event harrival host hmeets
    suffices hhost : host = Host.plain by
      rw [hhost]
      exact fun _ _ _ => rfl
    have hlabel := hmem call hcall
    generalize call.label = action at hlabel harrival
    cases action with
    | own self own =>
      obtain ⟨-, rfl⟩ : self = [1] ∧ own = .slot Host.plain (Sample.tick 3) := by
        simpa [restartedActions] using hlabel
      obtain ⟨-, rfl⟩ := Prod.mk.inj (Option.some.inj harrival)
      exact hmeets
    | gossip self met index =>
      obtain ⟨message, -, heq⟩ := Option.map_eq_some_iff.mp harrival
      obtain ⟨-, rfl⟩ := Prod.mk.inj heq
      have hmet : met = Host.plain := by
        simp only [restartedActions, List.mem_cons, List.not_mem_nil, or_false, Action.gossip.injEq,
          reduceCtorEq, false_or, or_false] at hlabel
        rcases hlabel with ⟨-, hmet, -⟩ | ⟨-, hmet, -⟩ <;> exact hmet
      rw [← hmet]
      cases message with
      | newTransaction => exact hmeets.elim
      | newBlock | vote => exact hmeets
    | request index => simp [restartedActions] at hlabel
    | response hosts index => simp [restartedActions] at hlabel
    | boot | publish | ask | answer => simp [arrival] at harrival
  exact ⟨calls, network, node, hrun, hlabels, hnode, of_decide_eq_true hheight,
    (restarts_harmless Sample.distinctKeys_deployment hrun hunforged hplain).1 [2] node hnode [1] _
      Sample.lookup_first (by decide)⟩

end Network

end Nocostcoin
