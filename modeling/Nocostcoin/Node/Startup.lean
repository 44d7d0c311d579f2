import Nocostcoin.Chain.Opening
import Nocostcoin.Node.Loop

/-!
# The start of a node

`Node::run` up to its loop: the keys, the genesis block, and the coins and registrations of the
configured validators. A configured validator is named by a seed; its Schnorrkel key is registered, while
the node's own wallet address is an Ed25519 key, also where both come from one seed.
-/

namespace Nocostcoin

/-- How the crates derive public keys from 32 bytes. -/
structure KeySchemes where
  /-- `schnorrkel::MiniSecretKey::from_bytes`, expanded to a key pair. -/
  schnorrkel : Bytes → Bytes
  /-- `ed25519_dalek::SigningKey::from_bytes`. -/
  ed25519 : Bytes → Bytes

/-- The 32 bytes of a seed text: cut, or filled up with zeros. -/
def seedBytes (seed : String) : Bytes :=
  (asBytes seed).take 32 ++ List.replicate (32 - (asBytes seed).length) 0

/-- `generate_validator_keypair`. -/
def generateValidatorKeypair (schemes : KeySchemes) (seed : String) : Bytes :=
  schemes.schnorrkel (seedBytes seed)

/-- `generate_wallet_key`. -/
def generateWalletKey (schemes : KeySchemes) (seed : String) : Bytes :=
  schemes.ed25519 (seedBytes seed)

/-- `GenesisConfig`. -/
structure GenesisConfig where
  genesisTime : Int64
  genesisSeed : String
  initialValidators : List String

/-- What a node is started with: the configuration, and the keys in the key files of its port, which are
read or newly made there when no seed is configured. -/
structure NodeConfig where
  genesis : GenesisConfig
  validatorSeed : Option String
  savedValidatorKey : Bytes
  savedWalletKey : Bytes

namespace NodeConfig

variable (schemes : KeySchemes) (config : NodeConfig)

/-- Step 1 of `Node::run`: the validator key. -/
def validatorKey : Bytes :=
  match config.validatorSeed with
  | some seed => generateValidatorKeypair schemes seed
  | none => config.savedValidatorKey

/-- Step 2 of `Node::run`: the wallet key. -/
def myAddress : Bytes :=
  match config.validatorSeed with
  | some seed => generateWalletKey schemes seed
  | none => config.savedWalletKey

/-- The keys of the configured validators. -/
def initialKeys : List Bytes := config.genesis.initialValidators.map (generateValidatorKeypair schemes)

/-- The address that a node with a configured seed funds for itself. -/
def selfKeys : List Bytes := if config.validatorSeed.isSome then [config.myAddress schemes] else []

/-- The genesis block of the configuration. -/
def genesisBlock (crypto : Crypto) : Block :=
  Node.genesisBlock crypto (generateValidatorKeypair schemes config.genesis.genesisSeed)
    config.genesis.genesisTime

end NodeConfig

/-- The coins and the stake of an initial validator. -/
def initialStake : UInt64 := 1000000

/-- Pre-registration of one key: a key without coins gets coins and is registered. -/
def Chain.preRegister (chain : Chain) (pubkey : Bytes) : Chain :=
  if chain.state.getBalance pubkey = 0 then
    { chain with
      state := chain.state.setBalance pubkey initialStake
      validators := (chain.validators.registerValidator pubkey initialStake 0).2 }
  else chain

/-- `Node::run` up to the loop: open the chain, pre-register the configured validators and the node's own
address if a seed is configured, and store the balances; a refused write is only logged. -/
def Node.boot (crypto : Crypto) (schemes : KeySchemes) (host : Host) (storage : Storage)
    (config : NodeConfig) (claims : FiniteMap Bytes Int64) : Option Node := do
  let chain ← Chain.new crypto host storage (config.genesisBlock schemes crypto)
  let chain := (config.initialKeys schemes).foldl Chain.preRegister chain
  let chain := if config.validatorSeed.isSome then chain.preRegister (config.myAddress schemes) else chain
  let (_, state) ← chain.state.applyChanges crypto host
  some { chain := { chain with state }, mempool := .new 1000, syncManager := .new, lastSlot := 0,
         simulationEnabled := false, validatorKey := config.validatorKey schemes,
         myAddress := config.myAddress schemes, claims }

/-- The balance that an account table shows. -/
def balanceIn (accounts : FiniteMap Bytes Account) (address : Bytes) : UInt64 :=
  ((accounts.lookup address).map Account.balance).getD 0

/-- The keys among some that a pre-registration in their order finds without coins. -/
def unfunded : FiniteMap Bytes Account → List Bytes → List Bytes
  | _, [] => []
  | accounts, key :: rest =>
    if balanceIn accounts key = 0 then
      key :: unfunded (fundedAccounts accounts [(key, initialStake)]) rest
    else unfunded accounts rest

namespace NodeConfig

/-- All keys that a start pre-registers, in its order. -/
def startKeys (schemes : KeySchemes) (config : NodeConfig) : List Bytes :=
  config.initialKeys schemes ++ config.selfKeys schemes

/-- The grants of a start on an account table. -/
def grants (schemes : KeySchemes) (config : NodeConfig) (accounts : FiniteMap Bytes Account) :
    List (Bytes × UInt64) :=
  (unfunded accounts (config.startKeys schemes)).map fun key => (key, initialStake)

end NodeConfig

/-- Setting a balance is funding. -/
theorem State.accounts_setBalance (state : State) (address : Bytes) (balance : UInt64) :
    (state.setBalance address balance).accounts = fundedAccounts state.accounts [(address, balance)] := by
  unfold setBalance
  rw [accounts_insertPending, accountOrNew, getAccount_eq_lookup]
  rfl

/-- Pre-registering keys in turn sets the balances and registers the stakes of the unfunded ones. -/
theorem Chain.foldl_preRegister (keys : List Bytes) (chain : Chain) :
    keys.foldl preRegister chain =
      let grants := (unfunded chain.state.accounts keys).map fun key => (key, initialStake)
      { chain with
        state := grants.foldl (fun state entry => state.setBalance entry.1 entry.2) chain.state
        validators := grants.foldl (fun set entry => (set.registerValidator entry.1 entry.2 0).2)
          chain.validators } := by
  induction keys generalizing chain with
  | nil => rfl
  | cons key rest ih =>
    have hbalance : chain.state.getBalance key = balanceIn chain.state.accounts key := by
      rw [State.getBalance, State.getAccount_eq_lookup]
      rfl
    rw [List.foldl_cons, unfunded, preRegister, hbalance]
    split
    · rw [ih, State.accounts_setBalance]
      rfl
    · exact ih chain

/-- Starting a node is setting it up with the grants for the accounts of its database. -/
theorem Node.boot_eq (crypto : Crypto) (schemes : KeySchemes) (host : Host) (storage : Storage)
    (config : NodeConfig) (claims : FiniteMap Bytes Int64) :
    boot crypto schemes host storage config claims =
      start crypto host storage (config.genesisBlock schemes crypto)
        (config.grants schemes storage.accounts) (config.grants schemes storage.accounts) claims
        (config.validatorKey schemes) (config.myAddress schemes) := by
  unfold boot start Chain.start
  cases hnew : Chain.new crypto host storage (config.genesisBlock schemes crypto) with
  | none => rfl
  | some chain =>
    have haccounts : chain.state.accounts = storage.accounts := by
      obtain ⟨trie, rfl⟩ := Chain.new_eq hnew
      change ∅ ∪ (storage.opened _).accounts = _
      rw [Finmap.empty_union, Storage.accounts_opened]
    have hkeys : (if config.validatorSeed.isSome then
          ((config.initialKeys schemes).foldl Chain.preRegister chain).preRegister
            (config.myAddress schemes)
        else (config.initialKeys schemes).foldl Chain.preRegister chain) =
        (config.startKeys schemes).foldl Chain.preRegister chain := by
      unfold NodeConfig.startKeys NodeConfig.selfKeys
      rw [List.foldl_append]
      split <;> rfl
    have hfunded := Chain.foldl_preRegister (config.startKeys schemes) chain
    rw [← hkeys, haccounts] at hfunded
    simp only [Option.bind_eq_bind, Option.bind_some]
    rw [hfunded]
    change Option.bind (State.applyChanges crypto host ((config.grants schemes storage.accounts).foldl
      (fun state entry => state.setBalance entry.1 entry.2) chain.state)) _ =
      Option.bind (Option.bind (State.applyChanges crypto host
        ((config.grants schemes storage.accounts).foldl
          (fun state entry => state.setBalance entry.1 entry.2) chain.state)) _) _
    cases State.applyChanges crypto host _ with
    | none => rfl
    | some outcome => rfl

/-- The balances after one grant. -/
theorem balanceIn_funded (accounts : FiniteMap Bytes Account) (key address : Bytes) (balance : UInt64) :
    balanceIn (fundedAccounts accounts [(key, balance)]) address =
      if address = key then balance else balanceIn accounts address := by
  unfold balanceIn fundedAccounts
  rw [List.foldl_cons, List.foldl_nil, FiniteMap.lookup_insert_ite]
  split <;> rfl

/-- The unfunded keys are those without coins, each once. -/
theorem mem_unfunded (accounts : FiniteMap Bytes Account) (keys : List Bytes) (address : Bytes) :
    address ∈ unfunded accounts keys ↔ address ∈ keys ∧ balanceIn accounts address = 0 := by
  induction keys generalizing accounts with
  | nil => simp [unfunded]
  | cons key rest ih =>
    rw [unfunded]
    split
    · rename_i hzero
      rw [List.mem_cons, ih, balanceIn_funded, List.mem_cons]
      by_cases hkey : address = key
      · simp [hkey, hzero]
      · simp [hkey]
    · rename_i hfunded
      rw [ih, List.mem_cons]
      constructor
      · rintro ⟨hrest, hzero⟩
        exact ⟨.inr hrest, hzero⟩
      · rintro ⟨rfl | hrest, hzero⟩
        · exact absurd hzero hfunded
        · exact ⟨hrest, hzero⟩

theorem nodup_unfunded (accounts : FiniteMap Bytes Account) (keys : List Bytes) :
    (unfunded accounts keys).Nodup := by
  induction keys generalizing accounts with
  | nil => exact List.nodup_nil
  | cons key rest ih =>
    rw [unfunded]
    split
    · refine List.nodup_cons.mpr ⟨fun hmem => ?_, ih _⟩
      have hzero := ((mem_unfunded _ _ _).mp hmem).2
      rw [balanceIn_funded, if_pos rfl] at hzero
      exact absurd hzero (by decide)
    · exact ih accounts

/-- An account table after equal grants to some keys. -/
theorem lookup_fundedAccounts (accounts : FiniteMap Bytes Account) (keys : List Bytes) (balance : UInt64)
    (address : Bytes) :
    (fundedAccounts accounts (keys.map fun key => (key, balance))).lookup address =
      if address ∈ keys then
        some { (accounts.lookup address).getD (Account.new 0) with balance }
      else accounts.lookup address := by
  induction keys generalizing accounts with
  | nil => rfl
  | cons key rest ih =>
    apply (ih _).trans
    rw [FiniteMap.lookup_insert_ite]
    by_cases hkey : address = key
    · subst hkey
      simp
    · simp [hkey]

namespace ValidatorSet

/-- Two sets with the same entries and total are equal. -/
theorem ext_lookup {set set' : ValidatorSet}
    (hentries : ∀ address, set.validators.lookup address = set'.validators.lookup address)
    (htotal : set.totalStake = set'.totalStake) : set = set' := by
  obtain ⟨validators, totalStake⟩ := set
  obtain ⟨validators', totalStake'⟩ := set'
  obtain rfl : validators = validators' := Finmap.ext_lookup hentries
  obtain rfl : totalStake = totalStake' := htotal
  rfl

/-- A validator set after equal registrations of some keys, of a sufficient stake. -/
theorem lookup_foldl_register (set : ValidatorSet) (keys : List Bytes) {stake : UInt64}
    (hstake : minStake ≤ stake) (address : Bytes) :
    ((keys.map fun key => (key, stake)).foldl
      (fun set entry => (set.registerValidator entry.1 entry.2 0).2) set).validators.lookup address =
      (set.validators.lookup address).or
        (if address ∈ keys then some (.new address stake 0) else none) := by
  induction keys generalizing set with
  | nil => simp
  | cons key rest ih =>
    rw [List.map_cons, List.foldl_cons, ih, lookup_registerValidator]
    by_cases hkey : address = key
    · subst hkey
      cases hlookup : set.validators.lookup address <;> simp [hstake]
    · simp [hkey]

/-- The total after registrations of new keys. -/
theorem totalStake_foldl_register (set : ValidatorSet) {keys : List Bytes} {stake : UInt64}
    (hstake : minStake ≤ stake) (hnodup : keys.Nodup)
    (hnew : ∀ key ∈ keys, set.validators.lookup key = none) :
    ((keys.map fun key => (key, stake)).foldl
      (fun set entry => (set.registerValidator entry.1 entry.2 0).2) set).totalStake =
      set.totalStake + UInt64.ofNat keys.length * stake := by
  induction keys generalizing set with
  | nil => simp
  | cons key rest ih =>
    obtain ⟨hkey, hrest⟩ := List.nodup_cons.mp hnodup
    have hfirst : (set.registerValidator key stake 0).2.totalStake = set.totalStake + stake := by
      unfold registerValidator
      rw [if_neg (UInt64.not_lt.mpr hstake), hnew key List.mem_cons_self, if_neg (by simp)]
    have hothers : ∀ other ∈ rest,
        (set.registerValidator key stake 0).2.validators.lookup other = none := by
      intro other hother
      have hne : other ≠ key := fun heq => hkey (heq ▸ hother)
      rw [lookup_registerValidator, if_neg fun hsame => hne hsame.1]
      exact hnew other (List.mem_cons_of_mem key hother)
    rw [List.map_cons, List.foldl_cons, ih _ hrest hothers, hfirst, List.length_cons]
    have hlength : UInt64.ofNat (rest.length + 1) = UInt64.ofNat rest.length + 1 := UInt64.ofNat_add _ _
    rw [hlength, UInt64.add_mul, UInt64.one_mul, UInt64.add_assoc, UInt64.add_comm stake]

end ValidatorSet

namespace Node

variable {crypto : Crypto} {schemes : KeySchemes} {host : Host} {storage : Storage}
  {config : NodeConfig} {claims : FiniteMap Bytes Int64} {node : Node}

/-- Whether a start finds a key among its own and without coins. -/
def Granted (schemes : KeySchemes) (config : NodeConfig) (accounts : FiniteMap Bytes Account)
    (address : Bytes) : Prop :=
  address ∈ config.startKeys schemes ∧ balanceIn accounts address = 0

instance (schemes : KeySchemes) (config : NodeConfig) (accounts : FiniteMap Bytes Account)
    (address : Bytes) : Decidable (Granted schemes config accounts address) :=
  inferInstanceAs (Decidable (_ ∧ _))

/-- What a started node has: the stored head, also as its finalized head; the stored accounts with the
granted balances; and exactly the granted keys registered. -/
structure Booted (crypto : Crypto) (schemes : KeySchemes) (storage : Storage) (config : NodeConfig)
    (chain : Chain) : Prop where
  head : chain.head = storage.head.getD (config.genesisBlock schemes crypto).hash
  finalizedHead : chain.finalizedHead = storage.head.getD (config.genesisBlock schemes crypto).hash
  blocks : chain.storage.blocks = (storage.opened (config.genesisBlock schemes crypto)).blocks
  accounts : ∀ address, chain.state.accounts.lookup address =
    if Granted schemes config storage.accounts address then
      some { (storage.accounts.lookup address).getD (Account.new 0) with balance := initialStake }
    else storage.accounts.lookup address
  validators : ∀ address, chain.validators.validators.lookup address =
    if Granted schemes config storage.accounts address then
      some (.new address initialStake 0)
    else none
  totalStake : chain.validators.totalStake =
    UInt64.ofNat (unfunded storage.accounts (config.startKeys schemes)).length * initialStake

/-- Every started node is so. -/
theorem booted_of_boot (h : boot crypto schemes host storage config claims = some node) :
    Booted crypto schemes storage config node.chain := by
  rw [boot_eq] at h
  obtain ⟨chain, hstart, hnode⟩ := Option.bind_eq_some_iff.mp h
  obtain rfl := Option.some.inj hnode
  have haccounts := Chain.accounts_of_start hstart
  obtain ⟨accounts, pendingChanges, trie, rfl⟩ := Chain.start_frame hstart
  refine ⟨rfl, rfl, rfl, fun address => ?_, fun address => ?_, ?_⟩
  · rw [haccounts]
    refine (lookup_fundedAccounts _ _ _ _).trans ?_
    exact if_congr (mem_unfunded _ _ _) rfl rfl
  · refine (ValidatorSet.lookup_foldl_register _ _ (by decide) _).trans ?_
    rw [ValidatorSet.new, Finmap.lookup_empty, Option.none_or]
    exact if_congr (mem_unfunded _ _ _) rfl rfl
  · refine (ValidatorSet.totalStake_foldl_register _ (by decide) (nodup_unfunded _ _) ?_).trans ?_
    · exact fun key _ => Finmap.lookup_empty key
    · exact UInt64.zero_add _

/-- On an empty database all start keys are granted. -/
theorem granted_empty {address : Bytes} :
    Granted schemes config Storage.empty.accounts address ↔ address ∈ config.startKeys schemes :=
  and_iff_left rfl

/-- The head block of a node started on an empty database. -/
theorem Booted.getHead {chain : Chain} (h : Booted crypto schemes .empty config chain) :
    chain.getHead = some (config.genesisBlock schemes crypto) := by
  unfold Chain.getHead Storage.getBlock
  rw [h.head, h.blocks]
  exact Finmap.lookup_insert _

/-- On an empty database the start keys have the coins of a start, and nobody else has any. -/
theorem Booted.getBalance {chain : Chain} (h : Booted crypto schemes .empty config chain) (address : Bytes) :
    chain.state.getBalance address = if address ∈ config.startKeys schemes then initialStake else 0 := by
  rw [State.getBalance, State.getAccount_eq_lookup, h.accounts, if_congr granted_empty rfl rfl]
  split <;> rfl

/-- Nodes with the same start keys register the same validators on empty databases. -/
theorem Booted.validators_congr {config' : NodeConfig} {chain chain' : Chain}
    (h : Booted crypto schemes .empty config chain) (h' : Booted crypto schemes .empty config' chain')
    (hkeys : ∀ address, address ∈ config.startKeys schemes ↔ address ∈ config'.startKeys schemes) :
    chain.validators = chain'.validators := by
  apply ValidatorSet.ext_lookup
  · intro address
    rw [h.validators, h'.validators]
    exact if_congr (granted_empty.trans ((hkeys address).trans granted_empty.symm)) rfl rfl
  · have hperm : (unfunded Storage.empty.accounts (config.startKeys schemes)).Perm
        (unfunded Storage.empty.accounts (config'.startKeys schemes)) := by
      apply (List.perm_ext_iff_of_nodup (nodup_unfunded _ _) (nodup_unfunded _ _)).mpr
      intro address
      rw [mem_unfunded, mem_unfunded, hkeys]
    rw [h.totalStake, h'.totalStake, hperm.length_eq]

/-- Two nodes have the same head block, balances and validator set. -/
structure StartsAlike (node₁ node₂ : Node) : Prop where
  genesis : node₁.chain.getHead = node₂.chain.getHead
  balances : ∀ address, node₁.chain.state.getBalance address = node₂.chain.state.getBalance address
  validators : node₁.chain.validators = node₂.chain.validators

/-- Two nodes started on empty databases with one genesis configuration, any validator seeds, saved keys and
databases: both have its genesis block as head, and they start alike if and only if the addresses that they
fund for themselves are the same outside the keys of the initial validators. -/
theorem startsAlike_iff_selfKeys {config₁ config₂ : NodeConfig} {host₁ host₂ : Host} {node₁ node₂ : Node}
    {claims₁ claims₂ : FiniteMap Bytes Int64}
    (h₁ : boot crypto schemes host₁ .empty config₁ claims₁ = some node₁)
    (h₂ : boot crypto schemes host₂ .empty config₂ claims₂ = some node₂)
    (hgenesis : config₁.genesis = config₂.genesis) :
    (node₁.chain.getHead = some (config₁.genesisBlock schemes crypto) ∧
      node₂.chain.getHead = some (config₁.genesisBlock schemes crypto)) ∧
    (StartsAlike node₁ node₂ ↔ ∀ address, address ∉ config₁.initialKeys schemes →
      (address ∈ config₁.selfKeys schemes ↔ address ∈ config₂.selfKeys schemes)) := by
  have hbooted₁ := booted_of_boot h₁
  have hbooted₂ := booted_of_boot h₂
  have hhead₁ := hbooted₁.getHead
  have hhead₂ : node₂.chain.getHead = some (config₁.genesisBlock schemes crypto) := by
    have hblock : config₁.genesisBlock schemes crypto = config₂.genesisBlock schemes crypto := by
      unfold NodeConfig.genesisBlock
      rw [hgenesis]
    rw [hblock]
    exact hbooted₂.getHead
  have hstart₁ : ∀ address, address ∈ config₁.startKeys schemes ↔
      address ∈ config₁.initialKeys schemes ∨ address ∈ config₁.selfKeys schemes :=
    fun address => List.mem_append
  have hstart₂ : ∀ address, address ∈ config₂.startKeys schemes ↔
      address ∈ config₁.initialKeys schemes ∨ address ∈ config₂.selfKeys schemes := by
    have hinitial : config₁.initialKeys schemes = config₂.initialKeys schemes := by
      unfold NodeConfig.initialKeys
      rw [hgenesis]
    rw [hinitial]
    exact fun address => List.mem_append
  refine ⟨⟨hhead₁, hhead₂⟩, ?_, ?_⟩
  · intro halike address hnotInitial
    -- the balance at the address shows whether a node funded it
    have hbalance := halike.balances address
    rw [hbooted₁.getBalance, hbooted₂.getBalance] at hbalance
    have hfunded : address ∈ config₁.startKeys schemes ↔ address ∈ config₂.startKeys schemes := by
      by_cases hkey₁ : address ∈ config₁.startKeys schemes <;>
        by_cases hkey₂ : address ∈ config₂.startKeys schemes
      · exact iff_of_true hkey₁ hkey₂
      · rw [if_pos hkey₁, if_neg hkey₂] at hbalance
        exact absurd hbalance (by decide)
      · rw [if_neg hkey₁, if_pos hkey₂] at hbalance
        exact absurd hbalance (by decide)
      · exact iff_of_false hkey₁ hkey₂
    rw [hstart₁, hstart₂, or_iff_right hnotInitial, or_iff_right hnotInitial] at hfunded
    exact hfunded
  · intro hself
    have hkeys : ∀ address, address ∈ config₁.startKeys schemes ↔ address ∈ config₂.startKeys schemes := by
      intro address
      rw [hstart₁, hstart₂]
      exact or_congr_right' (hself address)
    constructor
    case genesis => rw [hhead₁, hhead₂]
    case balances =>
      intro address
      rw [hbooted₁.getBalance, hbooted₂.getBalance]
      exact if_congr (hkeys address) rfl rfl
    case validators => exact hbooted₁.validators_congr hbooted₂ hkeys

end Node

/-- Key derivations that compute: two digests that differ in their first byte. -/
def KeySchemes.plain : KeySchemes where
  schnorrkel seed := polynomialDigest (7 :: seed)
  ed25519 seed := polynomialDigest (8 :: seed)

namespace Sample

/-- The configuration of a network with two initial validators, and perhaps a seed of the node's own. -/
def config (validatorSeed : Option String) : NodeConfig where
  genesis := { genesisTime := 0, genesisSeed := "genesis", initialValidators := ["first", "second"] }
  validatorSeed := validatorSeed
  savedValidatorKey := validator
  savedWalletKey := alice

/-- The start of a node of that network on an empty database. -/
def booted (validatorSeed : Option String) : Option Node :=
  Node.boot Crypto.plain KeySchemes.plain Host.plain .empty (config validatorSeed) ∅

/-- A database that refuses every account. -/
def accountless : Host :=
  { Host.plain with disk := fun record => match record with
    | .account _ _ => some "refused"
    | _ => none }

end Sample

namespace Node

/-- The two initial validators start with one genesis configuration, each with its own seed: the first has
coins and a stake at its own wallet address that the second does not know of. -/
theorem ledgers_differ_at_start :
    ∃ node₁ node₂, Sample.booted (some "first") = some node₁ ∧
      Sample.booted (some "second") = some node₂ ∧
      (Sample.config (some "first")).genesis = (Sample.config (some "second")).genesis ∧
      node₁.chain.state.getBalance node₁.myAddress ≠ node₂.chain.state.getBalance node₁.myAddress ∧
      node₁.chain.validators ≠ node₂.chain.validators := by
  have hcheck : (Sample.booted (some "first")).any (fun node₁ =>
      (Sample.booted (some "second")).any fun node₂ =>
        decide (node₁.chain.state.getBalance node₁.myAddress ≠
            node₂.chain.state.getBalance node₁.myAddress ∧
          node₁.chain.validators.isValidator node₁.myAddress ≠
            node₂.chain.validators.isValidator node₁.myAddress)) = true := by decide +kernel
  obtain ⟨node₁, h₁, hsecond⟩ := (Option.any_eq_true _ _).mp hcheck
  obtain ⟨node₂, h₂, hdiffer⟩ := (Option.any_eq_true _ _).mp hsecond
  obtain ⟨hbalance, hentry⟩ := of_decide_eq_true hdiffer
  exact ⟨node₁, node₂, h₁, h₂, rfl, hbalance, fun hsame => hentry (by rw [hsame])⟩

/-- Two nodes with one seed start alike, whatever their saved keys and although one of them cannot write
accounts; with two seeds they do not. -/
theorem startsAlike_with_one_seed :
    ∃ node₁ node₂ node₃, Sample.booted (some "first") = some node₁ ∧
      boot Crypto.plain KeySchemes.plain Sample.accountless .empty
        { Sample.config (some "first") with savedValidatorKey := Sample.alice, savedWalletKey := Sample.bob } ∅ =
          some node₂ ∧
      Sample.booted (some "second") = some node₃ ∧
      StartsAlike node₁ node₂ ∧ ¬ StartsAlike node₁ node₃ := by
  have hcheck : (Sample.booted (some "first")).isSome ∧
      (boot Crypto.plain KeySchemes.plain Sample.accountless .empty
        { Sample.config (some "first") with
          savedValidatorKey := Sample.alice, savedWalletKey := Sample.bob } ∅).isSome ∧
      (Sample.booted (some "second")).isSome := by decide +kernel
  obtain ⟨node₁, h₁⟩ := Option.isSome_iff_exists.mp hcheck.1
  obtain ⟨node₂, h₂⟩ := Option.isSome_iff_exists.mp hcheck.2.1
  obtain ⟨node₃, h₃⟩ := Option.isSome_iff_exists.mp hcheck.2.2
  refine ⟨node₁, node₂, node₃, h₁, h₂, h₃, ?_, ?_⟩
  · exact (startsAlike_iff_selfKeys h₁ h₂ rfl).2.mpr fun address _ => Iff.rfl
  · intro halike
    have hself := (startsAlike_iff_selfKeys h₁ h₃ rfl).2.mp halike
      (generateWalletKey KeySchemes.plain "first") (by decide +kernel)
    exact absurd (hself.mp (by decide +kernel)) (by decide +kernel)

end Node

end Nocostcoin
