import Nocostcoin.Records

/-!
# The Merkle Patricia trie

`insert`, `get` and `root` of `trie.rs` over the in-memory node table. A slice or an index that is
out of bounds panics in Rust; here the result is `none`, as it is when a walk does not end
within the length of its path, which takes an extension node with an empty path.
-/

namespace Nocostcoin

namespace MerklePatriciaTrie

/-- Children of a branch: one place for each nibble. -/
abbrev Children := Vector (Option String) 16

/-- Trie nodes; children are named by their hashes. -/
inductive Node where
  | leaf (key value : Bytes)
  | branch (children : Children) (value : Option Bytes)
  | extension (path : Bytes) (child : String)

/-- `bincode::serialize` of a node. -/
def Node.serialize : Node → Bytes
  | leaf key value => bincodeVariant 0 ++ bincodeBytes key ++ bincodeBytes value
  | branch children value =>
      bincodeVariant 1 ++ children.toList.flatMap (bincodeOption bincodeString) ++
        bincodeOption bincodeBytes value
  | extension path child => bincodeVariant 2 ++ bincodeBytes path ++ bincodeString child

/-- `Node::hash`. -/
def Node.hash (crypto : Crypto) (node : Node) : String := hexEncode (crypto.sha256 node.serialize)

/-- The node table, from hash to node. -/
abbrev Nodes := FiniteMap String Node

/-- `to_nibbles`: high half first. -/
def toNibbles (bytes : Bytes) : Bytes :=
  bytes.flatMap fun (byte : UInt8) => [byte >>> 4, byte &&& 0x0F]

/-- `common_prefix`: the length of the longest common prefix. -/
def commonPrefix : Bytes → Bytes → ℕ
  | x :: xs, y :: ys => if x = y then commonPrefix xs ys + 1 else 0
  | _, _ => 0

/-- Enter a node under its hash; every constructor of nodes ends with these three lines. -/
def store (crypto : Crypto) (nodes : Nodes) (node : Node) : Nodes × String :=
  (nodes.insert (node.hash crypto) node, node.hash crypto)

/-- `children[nibble] = Some(hash)`, out of bounds above 15. -/
def setChild (children : Children) (nibble : UInt8) (hash : String) : Option Children :=
  if h : nibble.toNat < 16 then some (children.set nibble.toNat (some hash)) else none

/-- A branch over two children, under an extension when there is a common prefix. -/
def storeFork (crypto : Crypto) (nodes : Nodes) (children : Children) (shared : Bytes) :
    Nodes × String :=
  let (nodes, branchHash) := store crypto nodes (.branch children none)
  if shared.isEmpty then (nodes, branchHash)
  else store crypto nodes (.extension shared branchHash)

/-- The remainder of a key past the fork: its nibble takes a leaf with the rest. A key that
ends at the fork has no nibble left and no leaf is made. -/
def forkLeaf (crypto : Crypto) (nodes : Nodes) (children : Children) (key : Bytes) (common : ℕ)
    (value : Bytes) : Option (Nodes × Children) :=
  match key.drop common with
  | [] => some (nodes, children)
  | nibble :: rest => do
      let (nodes, hash) := store crypto nodes (.leaf rest value)
      let children ← setChild children nibble hash
      some (nodes, children)

/-- `split_leaf`. -/
def splitLeaf (crypto : Crypto) (nodes : Nodes) (leafKey leafValue newKey newValue : Bytes) :
    Option (Nodes × String) := do
  let common := commonPrefix leafKey newKey
  let (nodes, children) ← forkLeaf crypto nodes (Vector.replicate 16 none) leafKey common leafValue
  let (nodes, children) ← forkLeaf crypto nodes children newKey common newValue
  some (storeFork crypto nodes children (leafKey.take common))

/-- `split_extension`. Unlike `split_leaf` it indexes the new key at the fork unchecked, so a
key that ends there is out of bounds. -/
def splitExtension (crypto : Crypto) (nodes : Nodes) (extPath : Bytes) (extChild : String)
    (newKey newValue : Bytes) (common : ℕ) : Option (Nodes × String) := do
  let extNibble ← extPath[common]?
  let extRest := extPath.drop (common + 1)
  let (nodes, extHash) :=
    if extRest.isEmpty then (nodes, extChild)
    else store crypto nodes (.extension extRest extChild)
  let children ← setChild (Vector.replicate 16 none) extNibble extHash
  let newNibble ← newKey[common]?
  let (nodes, newHash) := store crypto nodes (.leaf (newKey.drop (common + 1)) newValue)
  let children ← setChild children newNibble newHash
  some (storeFork crypto nodes children (extPath.take common))

/-- `insert_at`; the fuel bounds the depth of the walk. -/
def insertAt (crypto : Crypto) : ℕ → Nodes → Option String → Bytes → Bytes → Option (Nodes × String)
  | 0, _, _, _, _ => none
  | fuel + 1, nodes, nodeHash, path, value =>
    match path with
    | [] => some (store crypto nodes (.leaf [] value))
    | nibble :: rest =>
      match nodeHash.bind fun hash => nodes.lookup hash with
      | none => some (store crypto nodes (.leaf path value))
      | some (.leaf leafKey leafValue) =>
        if leafKey = path then some (store crypto nodes (.leaf path value))
        else splitLeaf crypto nodes leafKey leafValue path value
      | some (.branch children branchValue) =>
        if rest.isEmpty then some (store crypto nodes (.branch children (some value)))
        else if h : nibble.toNat < 16 then do
          let (nodes, childHash) ← insertAt crypto fuel nodes children[nibble.toNat] rest value
          some (store crypto nodes
            (.branch (children.set nibble.toNat (some childHash)) branchValue))
        else none
      | some (.extension extPath child) =>
        let common := commonPrefix extPath path
        if common = extPath.length then do
          let (nodes, newChild) ← insertAt crypto fuel nodes (some child) (path.drop common) value
          some (store crypto nodes (.extension extPath newChild))
        else splitExtension crypto nodes extPath child path value common

/-- `get_at`: the value found, if any; the fuel bounds the depth of the walk. -/
def getAt : ℕ → Nodes → String → Bytes → Option (Option Bytes)
  | 0, _, _, _ => none
  | fuel + 1, nodes, nodeHash, path =>
    match nodes.lookup nodeHash with
    | none => some none
    | some (.leaf key value) => some (if key = path then some value else none)
    | some (.branch children value) =>
      match path with
      | [] => some value
      | nibble :: rest =>
        if h : nibble.toNat < 16 then
          match children[nibble.toNat] with
          | none => some none
          | some child => getAt fuel nodes child rest
        else none
    | some (.extension extPath child) =>
      if extPath <+: path then getAt fuel nodes child (path.drop extPath.length) else some none

end MerklePatriciaTrie

/-- The trie: its nodes and the hash of its root. -/
structure MerklePatriciaTrie where
  nodes : MerklePatriciaTrie.Nodes
  root : Option String

namespace MerklePatriciaTrie

/-- `MerklePatriciaTrie::new`. -/
def new : MerklePatriciaTrie := { nodes := ∅, root := none }

/-- `insert`: one nibble is consumed at each level, so the path bounds the depth. -/
def insert (crypto : Crypto) (trie : MerklePatriciaTrie) (key value : Bytes) :
    Option MerklePatriciaTrie := do
  let nibbles := toNibbles key
  let (nodes, root) ← insertAt crypto (nibbles.length + 1) trie.nodes trie.root nibbles value
  some { nodes, root := some root }

/-- `get`. -/
def get (trie : MerklePatriciaTrie) (key : Bytes) : Option (Option Bytes) :=
  match trie.root with
  | none => some none
  | some root => getAt ((toNibbles key).length + 1) trie.nodes root (toNibbles key)

/-- `root`: the empty string for the empty trie. -/
def rootHash (trie : MerklePatriciaTrie) : String := trie.root.getD ""

end MerklePatriciaTrie

end Nocostcoin
