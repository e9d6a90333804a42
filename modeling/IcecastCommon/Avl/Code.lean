import IcecastCommon.Lib.Memory

/-!
# The code of `avl/avl.c`

The functions keep the names of the source, and each loop is a function of its own with a
bound on its rounds. Every bound is one more than the number of live cells: a walk that
needs more visits a cell twice and never ends.
-/

namespace Avl

open Lib

/-! ## `avl.h` -/

/-- The packed word of a node, through the four macros that `avl.h` has for it. -/
class RankBalance (ω : Type) where
  /-- `rank_and_balance = 0` -/
  zero : ω
  AVL_GET_BALANCE : ω → Int
  AVL_GET_RANK : ω → Int
  AVL_SET_BALANCE : ω → Int → ω
  AVL_SET_RANK : ω → Int → ω

export RankBalance (AVL_GET_BALANCE AVL_GET_RANK AVL_SET_BALANCE AVL_SET_RANK)

/-- The lower 2 bits are the balance factor plus one, the others the rank. -/
instance : RankBalance (BitVec 32) where
  zero := 0#32
  AVL_GET_BALANCE w := ((w &&& 3#32) - 1#32).toInt
  AVL_GET_RANK w := (w >>> 2).toNat
  AVL_SET_BALANCE w b := (w &&& ~~~3#32) ||| BitVec.ofInt 32 (b + 1)
  AVL_SET_RANK w r := (w &&& 3#32) ||| (BitVec.ofInt 32 r <<< 2)

/-- The values of a key pointer have one that is NULL. -/
class HasNull (κ : Type) where
  NULL : κ

structure avl_node (κ ω : Type) where
  key : κ
  left : Ptr
  right : Ptr
  parent : Ptr
  rank_and_balance : ω

/-- The tree, with the memory that holds its nodes. `compare_arg` is part of `compare_fun`. -/
structure avl_tree (κ ω : Type) where
  root : Ptr
  height : BitVec 32
  length : BitVec 32
  compare_fun : κ → κ → Int
  mem : Memory (avl_node κ ω)

variable {κ ω : Type}

/-! ## Reading and writing one field -/

section Fields

variable (m : Memory (avl_node κ ω)) (p q : Ptr)

def set_left : C (Memory (avl_node κ ω)) := m.update p fun n => { n with left := q }
def set_right : C (Memory (avl_node κ ω)) := m.update p fun n => { n with right := q }
def set_parent : C (Memory (avl_node κ ω)) := m.update p fun n => { n with parent := q }
def set_key (k : κ) : C (Memory (avl_node κ ω)) := m.update p fun n => { n with key := k }

variable [RankBalance ω]

def get_rank : C Int := return AVL_GET_RANK (← m.load p).rank_and_balance

def get_balance : C Int := return AVL_GET_BALANCE (← m.load p).rank_and_balance

def set_rank (r : Int) : C (Memory (avl_node κ ω)) :=
  m.update p fun n => { n with rank_and_balance := AVL_SET_RANK n.rank_and_balance r }

def set_balance (b : Int) : C (Memory (avl_node κ ω)) :=
  m.update p fun n => { n with rank_and_balance := AVL_SET_BALANCE n.rank_and_balance b }

/-- `if (q) q->parent = p;` -/
def set_parent_of : C (Memory (avl_node κ ω)) :=
  match q with
  | none => return m
  | some _ => set_parent m q p

end Fields

variable [RankBalance ω]

/-! ## New nodes and trees -/

def avl_node_new (m : Memory (avl_node κ ω)) (key : κ) (parent : Ptr) :
    Option Nat × Memory (avl_node κ ω) :=
  m.malloc
    { key, left := none, right := none, parent
      rank_and_balance := AVL_SET_RANK (AVL_SET_BALANCE RankBalance.zero 0) 1 }

/-- `none` when the root node cannot be allocated. The tree record itself is no cell of `m`. -/
def avl_tree_new [HasNull κ] (compare_fun : κ → κ → Int) (m : Memory (avl_node κ ω)) :
    Option (avl_tree κ ω) :=
  match avl_node_new m HasNull.NULL none with
  | (none, _) => none
  | (root, m) => some { root, height := 0, length := 0, compare_fun, mem := m }

/-! ## Rotations

`avl_insert` and `avl_delete` spell out the same pointer moves. Here they are written once.
-/

/-- `q` is the left child of `p` and takes its place. -/
def single_rotate_right (m : Memory (avl_node κ ω)) (p q : Ptr) : C (Memory (avl_node κ ω)) := do
  let inner := (← m.load q).right
  let m ← set_left m p inner
  let m ← set_parent_of m p inner
  let m ← set_right m q p
  let m ← set_parent m p q
  set_rank m p ((← get_rank m p) - (← get_rank m q))

/-- `q` is the right child of `p` and takes its place. -/
def single_rotate_left (m : Memory (avl_node κ ω)) (p q : Ptr) : C (Memory (avl_node κ ω)) := do
  let inner := (← m.load q).left
  let m ← set_right m p inner
  let m ← set_parent_of m p inner
  let m ← set_left m q p
  let m ← set_parent m p q
  set_rank m q ((← get_rank m q) + (← get_rank m p))

/-- `q` is the left child of `p`, and `r` the right child of `q`: `r` takes the place of `p`. -/
def double_rotate_right (m : Memory (avl_node κ ω)) (p q r : Ptr) : C (Memory (avl_node κ ω)) := do
  let inner := (← m.load r).left
  let m ← set_right m q inner
  let m ← set_parent_of m q inner
  let m ← set_left m r q
  let m ← set_parent m q r
  let inner := (← m.load r).right
  let m ← set_left m p inner
  let m ← set_parent_of m p inner
  let m ← set_right m r p
  let m ← set_parent m p r
  let m ← set_rank m r ((← get_rank m r) + (← get_rank m q))
  set_rank m p ((← get_rank m p) - (← get_rank m r))

/-- `q` is the right child of `p`, and `r` the left child of `q`: `r` takes the place of `p`. -/
def double_rotate_left (m : Memory (avl_node κ ω)) (p q r : Ptr) : C (Memory (avl_node κ ω)) := do
  let inner := (← m.load r).right
  let m ← set_left m q inner
  let m ← set_parent_of m q inner
  let m ← set_right m r q
  let m ← set_parent m q r
  let inner := (← m.load r).left
  let m ← set_right m p inner
  let m ← set_parent_of m p inner
  let m ← set_left m r p
  let m ← set_parent m p r
  let m ← set_rank m q ((← get_rank m q) - (← get_rank m r))
  set_rank m r ((← get_rank m r) + (← get_rank m p))

/-- `if (s == t->right) t->right = p; else t->left = p;` -/
def relink_right (m : Memory (avl_node κ ω)) (t s p : Ptr) : C (Memory (avl_node κ ω)) := do
  if s = (← m.load t).right then set_right m t p else set_left m t p

/-- `if (top->left == p) top->left = q; else top->right = q;` -/
def relink_left (m : Memory (avl_node κ ω)) (top p q : Ptr) : C (Memory (avl_node κ ω)) := do
  if (← m.load top).left = p then set_left m top q else set_right m top q

/-! ## `avl_insert` -/

/-- The search for the place: `t`, `s` and the new node `q`, or none when it cannot be allocated. -/
def insert_search (compare_fun : κ → κ → Int) (key : κ) :
    Nat → Memory (avl_node κ ω) → Ptr → Ptr → Ptr →
      C (Memory (avl_node κ ω) × Option (Ptr × Ptr × Ptr))
  | 0, _, _, _, _ => throw .endless
  | fuel + 1, m, t, s, p => do
    let n ← m.load p
    if compare_fun key n.key < 1 then
      -- move left
      let m ← set_rank m p (AVL_GET_RANK n.rank_and_balance + 1)
      match n.left with
      | none =>
        match avl_node_new m key p with
        | (none, m) => return (m, none)
        | (some q, m) =>
          let m ← set_left m p (some q)
          return (m, some (t, s, some q))
      | some q =>
        if (← get_balance m (some q)) ≠ 0 then
          insert_search compare_fun key fuel m p (some q) (some q)
        else insert_search compare_fun key fuel m t s (some q)
    else
      -- move right
      match n.right with
      | none =>
        match avl_node_new m key p with
        | (none, m) => return (m, none)
        | (some q, m) =>
          let m ← set_right m p (some q)
          return (m, some (t, s, some q))
      | some q =>
        if (← get_balance m (some q)) ≠ 0 then
          insert_search compare_fun key fuel m p (some q) (some q)
        else insert_search compare_fun key fuel m t s (some q)

/-- `while (p != q)`: the balance factors between `s` and the new node `q`. -/
def insert_adjust (compare_fun : κ → κ → Int) (key : κ) (q : Ptr) :
    Nat → Memory (avl_node κ ω) → Ptr → C (Memory (avl_node κ ω))
  | 0, _, _ => throw .endless
  | fuel + 1, m, p =>
    if p = q then return m
    else do
      let n ← m.load p
      if compare_fun key n.key < 1 then
        insert_adjust compare_fun key q fuel (← set_balance m p (-1)) n.left
      else
        insert_adjust compare_fun key q fuel (← set_balance m p 1) n.right

/-- The rotations of the balancing act, and the node that is now on top. `p` is what it
was before. -/
def insert_rotate (m : Memory (avl_node κ ω)) (a : Int) (s r p : Ptr) :
    C (Memory (avl_node κ ω) × Ptr) := do
  if (← get_balance m r) = a then
    -- single rotation
    let m ← if a = -1 then single_rotate_right m s r else single_rotate_left m s r
    let m ← set_balance m s 0
    let m ← set_balance m r 0
    return (m, r)
  else if (← get_balance m r) = -a then
    -- double rotation
    let n ← m.load r
    let p := if a = -1 then n.right else n.left
    let m ← if a = -1 then double_rotate_right m s r p else double_rotate_left m s r p
    let b ← get_balance m p
    let m ← set_balance m s (if b = a then -a else 0)
    let m ← set_balance m r (if b = a then 0 else if b = -a then a else 0)
    let m ← set_balance m p 0
    return (m, p)
  else return (m, p)

/-- The finishing touch: `p` is now the child of `t` that `s` was. -/
def insert_finish (m : Memory (avl_node κ ω)) (t s p : Ptr) : C (Memory (avl_node κ ω)) := do
  let m ← relink_right m t s p
  set_parent m p t

def avl_insert (ob : avl_tree κ ω) (key : κ) : C (Int × avl_tree κ ω) := do
  let root ← ob.mem.load ob.root
  match root.right with
  | none =>
    match avl_node_new ob.mem key ob.root with
    | (none, m) => return (-1, { ob with mem := m })
    | (some node, m) =>
      let m ← set_right m ob.root (some node)
      return (0, { ob with mem := m, length := ob.length + 1 })
  | some top =>
    let bound := ob.mem.size + 1
    let (m, place) ← insert_search ob.compare_fun key bound ob.mem ob.root (some top) (some top)
    match place with
    | none => return (-1, { ob with mem := m })
    | some (t, s, q) =>
      let length := ob.length + 1
      -- adjust balance factors
      let n ← m.load s
      let r := if ob.compare_fun key n.key < 1 then n.left else n.right
      let m ← insert_adjust ob.compare_fun key q bound m r
      -- balancing act
      let a : Int := if ob.compare_fun key n.key < 1 then -1 else 1
      let b ← get_balance m s
      if b = 0 then
        let m ← set_balance m s a
        return (0, { ob with mem := m, length, height := ob.height + 1 })
      else if b = -a then
        let m ← set_balance m s 0
        return (0, { ob with mem := m, length })
      else if b = a then
        let (m, p) ← insert_rotate m a s r q
        let m ← insert_finish m t s p
        return (0, { ob with mem := m, length })
      else return (0, { ob with mem := m, length })

/-! ## `avl_delete` -/

/-- Undo the rank changes all the way up the tree, from `x`. -/
def delete_undo (root : Ptr) : Nat → Memory (avl_node κ ω) → Ptr → C (Memory (avl_node κ ω))
  | 0, _, _ => throw .endless
  | fuel + 1, m, x => do
    if x = (← m.load root).right then return m
    else
      let parent := (← m.load x).parent
      let m ←
        if (← m.load parent).left = x then set_rank m parent ((← get_rank m parent) + 1)
        else pure m
      delete_undo root fuel m parent

/-- The search for `key`: the node, or NULL when the key is not in the tree. -/
def delete_search (compare_fun : κ → κ → Int) (key : κ) (root : Ptr) (bound : Nat) :
    Nat → Memory (avl_node κ ω) → Ptr → C (Memory (avl_node κ ω) × Ptr)
  | 0, _, _ => throw .endless
  | fuel + 1, m, x => do
    let n ← m.load x
    if compare_fun key n.key < 0 then
      -- move left
      let m ← set_rank m x (AVL_GET_RANK n.rank_and_balance - 1)
      match n.left with
      | some l => delete_search compare_fun key root bound fuel m (some l)
      | none =>
        let m ← set_rank m x ((← get_rank m x) + 1)
        return (← delete_undo root bound m x, none)
    else if 0 < compare_fun key n.key then
      -- move right
      match n.right with
      | some r => delete_search compare_fun key root bound fuel m (some r)
      | none =>
        let m ← set_rank m x (AVL_GET_RANK n.rank_and_balance + 1)
        return (← delete_undo root bound m x, none)
    else return (m, x)

/-- `while (y->right) y = y->right;` -/
def rightmost : Nat → Memory (avl_node κ ω) → Ptr → C Ptr
  | 0, _, _ => throw .endless
  | fuel + 1, m, y => do
    match (← m.load y).right with
    | none => return y
    | some r => rightmost fuel m (some r)

/-- Swap `x` with its predecessor when it has two children. The node to unlink. -/
def delete_swap (bound : Nat) (m : Memory (avl_node κ ω)) (x : Ptr) :
    C (Memory (avl_node κ ω) × Ptr) := do
  let n ← m.load x
  match n.left, n.right with
  | some l, some _ =>
    let y ← rightmost bound m (some l)
    let temp_key := n.key
    let m ← set_key m x (← m.load y).key
    let m ← set_key m y temp_key
    let m ← set_rank m x ((← get_rank m x) - 1)
    return (m, y)
  | _, _ => return (m, x)

/-- Put the only child of `x` into its place. The parent, and the side that got shorter. -/
def delete_unlink (m : Memory (avl_node κ ω)) (x : Ptr) :
    C (Memory (avl_node κ ω) × Ptr × Int) := do
  let n ← m.load x
  let x_child := if n.left ≠ none then n.left else if n.right ≠ none then n.right else none
  let m ← set_parent_of m n.parent x_child
  if x = (← m.load n.parent).left then
    return (← set_left m n.parent x_child, n.parent, -1)
  else
    return (← set_right m n.parent x_child, n.parent, 1)

/-- One round of the climb at `p`: the top node of the subtree after it, and `shorter`. -/
def delete_rebalance (m : Memory (avl_node κ ω)) (p : Ptr) (shortened_side : Int) :
    C (Memory (avl_node κ ω) × Ptr × Bool) := do
  let n ← m.load p
  let b := AVL_GET_BALANCE n.rank_and_balance
  if b = 0 then
    -- case 1: height unchanged
    let m ← set_balance m p (if shortened_side = -1 then 1 else -1)
    return (m, p, false)
  else if b = shortened_side then
    -- case 2: taller subtree shortened, height reduced
    let m ← set_balance m p 0
    return (m, p, true)
  else
    -- case 3: shorter subtree shortened
    let top := n.parent
    let q := if shortened_side = 1 then n.left else n.right
    let bq ← get_balance m q
    let (m, q, shorter) ←
      if bq = 0 then do
        -- case 3a: height unchanged
        let m ← set_parent m q n.parent
        let m ← if shortened_side = -1 then single_rotate_left m p q else single_rotate_right m p q
        let m ← set_balance m q shortened_side
        let m ← set_balance m p (-shortened_side)
        pure (m, q, false)
      else if bq = b then do
        -- case 3b: height reduced
        let m ← set_parent m q n.parent
        let m ← if shortened_side = -1 then single_rotate_left m p q else single_rotate_right m p q
        let m ← set_balance m q 0
        let m ← set_balance m p 0
        pure (m, q, true)
      else do
        -- case 3c: height reduced, balance factors opposite
        let n_q ← m.load q
        let r := if shortened_side = 1 then n_q.right else n_q.left
        let m ← set_parent m r n.parent
        let m ← if shortened_side = 1 then double_rotate_right m p q r
          else double_rotate_left m p q r
        let br ← get_balance m r
        let m ← set_balance m q (if br = shortened_side then -shortened_side else 0)
        let m ← set_balance m p
          (if br = shortened_side then 0 else if br = -shortened_side then shortened_side else 0)
        let m ← set_balance m r 0
        pure (m, r, true)
    let m ← relink_left m top p q
    return (m, q, shorter)

/-- `while (shorter && p->parent)` -/
def delete_climb : Nat → Memory (avl_node κ ω) → Ptr → Int → C (Memory (avl_node κ ω))
  | 0, _, _, _ => throw .endless
  | fuel + 1, m, p, shortened_side => do
    match (← m.load p).parent with
    | none => return m
    | some _ =>
      let (m, x, shorter) ← delete_rebalance m p shortened_side
      let p := (← m.load x).parent
      let shortened_side := if x = (← m.load p).left then -1 else 1
      if shorter then delete_climb fuel m p shortened_side else return m

/-- The result, the tree, and the keys that `free_key_fun` was called on. -/
def avl_delete (tree : avl_tree κ ω) (key : κ) (free_key_fun : Option (κ → Int)) :
    C (Int × avl_tree κ ω × List κ) := do
  let root ← tree.mem.load tree.root
  match root.right with
  | none => return (-1, tree, [])
  | some top =>
    let bound := tree.mem.size + 1
    let (m, x) ← delete_search tree.compare_fun key tree.root bound bound tree.mem (some top)
    match x with
    | none => return (-1, { tree with mem := m }, [])
    | some x =>
      let (m, x) ← delete_swap bound m (some x)
      let (m, p, shortened_side) ← delete_unlink m x
      let n ← m.load x
      let freed := match free_key_fun with
        | none => []
        | some _ => [n.key]
      let m ← m.free x
      let m ← delete_climb bound m p shortened_side
      return (0, { tree with mem := m, length := tree.length - 1 }, freed)

/-! ## Freeing a tree

The second result is the keys that `free_key_fun` was called on.
-/

def avl_tree_free_helper (free_key_fun : Option (κ → Int)) :
    Nat → Memory (avl_node κ ω) → Ptr → C (Memory (avl_node κ ω) × List κ)
  | 0, _, _ => throw .endless
  | fuel + 1, m, node => do
    let n ← m.load node
    let (m, freed) ← (match n.left with
      | none => pure (m, [])
      | some l => avl_tree_free_helper free_key_fun fuel m (some l))
    let n ← m.load node
    let freed := freed ++ match free_key_fun with
      | none => []
      | some _ => [n.key]
    let (m, freed) ← (match n.right with
      | none => pure (m, freed)
      | some r => do
        let (m, freed_right) ← avl_tree_free_helper free_key_fun fuel m (some r)
        pure (m, freed ++ freed_right))
    return (← m.free node, freed)

/-- What is left of the memory. The record of the tree is no cell of it. -/
def avl_tree_free (tree : avl_tree κ ω) (free_key_fun : Option (κ → Int)) :
    C (Memory (avl_node κ ω) × List κ) := do
  let (m, freed) ← (if tree.length ≠ 0 then do
      let top := (← tree.mem.load tree.root).right
      avl_tree_free_helper free_key_fun (tree.mem.size + 1) tree.mem top
    else pure (tree.mem, []))
  return (← m.free tree.root, freed)

/-! ## Lookups

The second result is what is written to `*value_address`, or none when nothing is.
-/

def get_by_index : Nat → Memory (avl_node κ ω) → Ptr → BitVec 64 → C (Int × Option κ)
  | 0, _, _, _ => throw .endless
  | fuel + 1, mem, p, m => do
    match p with
    | none => return (-1, none)
    | some _ =>
      let n ← mem.load p
      let rank := AVL_GET_RANK n.rank_and_balance
      if (m.toNat : Int) < rank then get_by_index fuel mem n.left m
      else if rank < (m.toNat : Int) then get_by_index fuel mem n.right (m - BitVec.ofInt 64 rank)
      else return (0, some n.key)

def avl_get_by_index (tree : avl_tree κ ω) (index : BitVec 64) : C (Int × Option κ) := do
  get_by_index (tree.mem.size + 1) tree.mem (← tree.mem.load tree.root).right (index + 1)

def get_by_key (compare_fun : κ → κ → Int) (key : κ) :
    Nat → Memory (avl_node κ ω) → Ptr → C (Int × Option κ)
  | 0, _, _ => throw .endless
  | fuel + 1, mem, x => do
    let n ← mem.load x
    let compare_result := compare_fun key n.key
    if compare_result < 0 then
      match n.left with
      | some l => get_by_key compare_fun key fuel mem (some l)
      | none => return (-1, none)
    else if 0 < compare_result then
      match n.right with
      | some r => get_by_key compare_fun key fuel mem (some r)
      | none => return (-1, none)
    else return (0, some n.key)

def avl_get_by_key (tree : avl_tree κ ω) (key : κ) : C (Int × Option κ) := do
  match (← tree.mem.load tree.root).right with
  | none => return (-1, none)
  | some x => get_by_key tree.compare_fun key (tree.mem.size + 1) tree.mem (some x)

/-! ## Traversals -/

/-- A function that is called on keys may change what `iter_arg` points to. -/
abbrev avl_iter_fun_type (κ σ : Type) := κ → σ → Int × σ

abbrev avl_iter_index_fun_type (κ σ : Type) := BitVec 64 → κ → σ → Int × σ

def avl_iterate_inorder_helper {σ : Type} (m : Memory (avl_node κ ω))
    (iter_fun : avl_iter_fun_type κ σ) :
    Nat → Ptr → σ → C (Int × σ)
  | 0, _, _ => throw .endless
  | fuel + 1, node, iter_arg => do
    let n ← m.load node
    let (result, iter_arg) ← (match n.left with
      | none => pure (0, iter_arg)
      | some l => avl_iterate_inorder_helper m iter_fun fuel (some l) iter_arg)
    if result ≠ 0 then return (result, iter_arg)
    let (result, iter_arg) := iter_fun n.key iter_arg
    if result ≠ 0 then return (result, iter_arg)
    let (result, iter_arg) ← (match n.right with
      | none => pure (0, iter_arg)
      | some r => avl_iterate_inorder_helper m iter_fun fuel (some r) iter_arg)
    if result ≠ 0 then return (result, iter_arg)
    return (0, iter_arg)

def avl_iterate_inorder {σ : Type} (tree : avl_tree κ ω) (iter_fun : avl_iter_fun_type κ σ)
    (iter_arg : σ) : C (Int × σ) := do
  if tree.length ≠ 0 then
    avl_iterate_inorder_helper tree.mem iter_fun (tree.mem.size + 1)
      (← tree.mem.load tree.root).right iter_arg
  else return (0, iter_arg)

/-- `while (node->left) node = node->left;` -/
def leftmost : Nat → Memory (avl_node κ ω) → Ptr → C Ptr
  | 0, _, _ => throw .endless
  | fuel + 1, m, node => do
    match (← m.load node).left with
    | none => return node
    | some l => leftmost fuel m (some l)

section Neighbours

variable [HasNull κ] [DecidableEq κ]

def avl_get_first (tree : avl_tree κ ω) : C Ptr := do
  match (← tree.mem.load tree.root).right with
  | none => return none
  | some node =>
    if (← tree.mem.load (some node)).key = HasNull.NULL then return none
    leftmost (tree.mem.size + 1) tree.mem (some node)

/-- `while (node->parent && node->parent->key)`: up to the first node that has `child`
on that side. -/
def climb (side : avl_node κ ω → Ptr) : Nat → Memory (avl_node κ ω) → Ptr → C Ptr
  | 0, _, _ => throw .endless
  | fuel + 1, m, child => do
    match (← m.load child).parent with
    | none => return none
    | some node =>
      let n ← m.load (some node)
      if n.key = HasNull.NULL then return none
      if child = side n then return some node
      climb side fuel m (some node)

def avl_get_prev (m : Memory (avl_node κ ω)) (node : Ptr) : C Ptr := do
  match (← m.load node).left with
  | some l => rightmost (m.size + 1) m (some l)
  | none => climb avl_node.right (m.size + 1) m node

def avl_get_next (m : Memory (avl_node κ ω)) (node : Ptr) : C Ptr := do
  match (← m.load node).right with
  | some r => leftmost (m.size + 1) m (some r)
  | none => climb avl_node.left (m.size + 1) m node

/-- `while (1)`: the node with rank `i`, counted from one. -/
def index_search : Nat → Memory (avl_node κ ω) → Ptr → BitVec 64 → C Ptr
  | 0, _, _, _ => throw .endless
  | fuel + 1, m, node, i => do
    let n ← m.load node
    let rank := AVL_GET_RANK n.rank_and_balance
    if (i.toNat : Int) < rank then index_search fuel m n.left i
    else if rank < (i.toNat : Int) then index_search fuel m n.right (i - BitVec.ofInt 64 rank)
    else return node

/-- `while (num_left)` -/
def index_walk {σ : Type} (m : Memory (avl_node κ ω)) (iter_fun : avl_iter_index_fun_type κ σ) :
    Nat → Ptr → σ → C (Int × σ)
  | 0, _, iter_arg => return (0, iter_arg)
  | num_left + 1, node, iter_arg => do
    let (result, iter_arg) := iter_fun (BitVec.ofNat 64 num_left) (← m.load node).key iter_arg
    if result ≠ 0 then return (-1, iter_arg)
    index_walk m iter_fun num_left (← avl_get_prev m node) iter_arg

def avl_iterate_index_range {σ : Type} (tree : avl_tree κ ω)
    (iter_fun : avl_iter_index_fun_type κ σ) (low high : BitVec 64) (iter_arg : σ) :
    C (Int × σ) := do
  if tree.length.toNat < high.toNat then return (-1, iter_arg)
  let num_left := high - low
  let node ← index_search (tree.mem.size + 1) tree.mem (← tree.mem.load tree.root).right high
  index_walk tree.mem iter_fun num_left.toNat node iter_arg

/-! ## Spans of keys

A parameter `index`, `m`, `i` or `j` is what the variable of that name holds before it is set.
-/

def index_by_key (compare_fun : κ → κ → Int) (key : κ) :
    Nat → Memory (avl_node κ ω) → Ptr → BitVec 64 → C (Ptr × BitVec 64)
  | 0, _, _, _ => throw .endless
  | fuel + 1, mem, x, m => do
    let n ← mem.load x
    let compare_result := compare_fun key n.key
    if compare_result < 0 then
      match n.left with
      | some l =>
        let m := m - BitVec.ofInt 64 (AVL_GET_RANK n.rank_and_balance)
        index_by_key compare_fun key fuel mem (some l)
          (m + BitVec.ofInt 64 (← get_rank mem (some l)))
      | none => return (none, m - 2)
    else if 0 < compare_result then
      match n.right with
      | some r =>
        index_by_key compare_fun key fuel mem (some r)
          (m + BitVec.ofInt 64 (← get_rank mem (some r)))
      | none => return (none, m - 1)
    else return (x, m - 1)

/-- The node and `*index`, which an empty tree leaves as it was. -/
def avl_get_index_by_key (tree : avl_tree κ ω) (key : κ) (index : BitVec 64) :
    C (Ptr × BitVec 64) := do
  match (← tree.mem.load tree.root).right with
  | none => return (none, index)
  | some x =>
    let m := BitVec.ofInt 64 (← get_rank tree.mem (some x))
    index_by_key tree.compare_fun key (tree.mem.size + 1) tree.mem (some x) m

/-- `while (left && (i > 0) && ...)` -/
def search_left (compare_fun : κ → κ → Int) (key : κ) :
    Nat → Memory (avl_node κ ω) → Ptr → BitVec 64 → C (BitVec 64)
  | 0, _, _, _ => throw .endless
  | fuel + 1, mem, left, i => do
    match left with
    | none => return i
    | some _ =>
      if 0 < i.toNat then
        if compare_fun key (← mem.load left).key = 0 then
          search_left compare_fun key fuel mem (← avl_get_prev mem left) (i - 1)
        else return i
      else return i

/-- `while (right && (j <= tree->length) && ...)` -/
def search_right (compare_fun : κ → κ → Int) (key : κ) (length : BitVec 32) :
    Nat → Memory (avl_node κ ω) → Ptr → BitVec 64 → C (BitVec 64)
  | 0, _, _, _ => throw .endless
  | fuel + 1, mem, right, j => do
    match right with
    | none => return j
    | some _ =>
      if j.toNat ≤ length.toNat then
        if compare_fun key (← mem.load right).key = 0 then
          search_right compare_fun key length fuel mem (← avl_get_next mem right) (j + 1)
        else return j
      else return j

/-- The result, `*low` and `*high`. -/
def avl_get_span_by_key (tree : avl_tree κ ω) (key : κ) (m : BitVec 64) :
    C (Int × BitVec 64 × BitVec 64) := do
  let bound := tree.mem.size + 1
  let (node, m) ← avl_get_index_by_key tree key m
  match node with
  | some _ =>
    let i ← search_left tree.compare_fun key bound tree.mem (← avl_get_prev tree.mem node) m
    let j ← search_right tree.compare_fun key tree.length bound tree.mem
      (← avl_get_next tree.mem node) m
    return (0, i, j + 1)
  | none => return (0, m, m)

def avl_get_span_by_two_keys (tree : avl_tree κ ω) (low_key high_key : κ) (i j : BitVec 64) :
    C (Int × BitVec 64 × BitVec 64) := do
  let bound := tree.mem.size + 1
  let order := tree.compare_fun low_key high_key
  let (low_key, high_key) := if 0 < order then (high_key, low_key) else (low_key, high_key)
  let (low_node, i) ← avl_get_index_by_key tree low_key i
  let (high_node, j) ← avl_get_index_by_key tree high_key j
  let i ← (match low_node with
    | some _ =>
      do search_left tree.compare_fun low_key bound tree.mem (← avl_get_prev tree.mem low_node) i
    | none => pure (i + 1))
  let j ← (match high_node with
    | some _ => do
      search_right tree.compare_fun high_key tree.length bound tree.mem
        (← avl_get_next tree.mem high_node) j
    | none => pure (j + 1))
  return (0, i, j)

/-! ## The nearest key

The second result is `*value_address`.
-/

/-- `while (1)`, for both functions. They differ in the turn on which they save the key. -/
def item_by_key (saves_left : Bool) (compare_fun : κ → κ → Int) (key : κ) :
    Nat → Memory (avl_node κ ω) → Ptr → κ → C (Int × κ)
  | 0, _, _, _ => throw .endless
  | fuel + 1, mem, x, value => do
    let n ← mem.load x
    let compare_result := compare_fun key n.key
    if compare_result = 0 then return (0, n.key)
    else if compare_result < 0 then
      let value := if saves_left then n.key else value
      match n.left with
      | some l => item_by_key saves_left compare_fun key fuel mem (some l) value
      | none => return (if value = HasNull.NULL then -1 else 0, value)
    else
      let value := if saves_left then value else n.key
      match n.right with
      | some r => item_by_key saves_left compare_fun key fuel mem (some r) value
      | none => return (if value = HasNull.NULL then -1 else 0, value)

def get_item_by_key (saves_left : Bool) (tree : avl_tree κ ω) (key : κ) : C (Int × κ) := do
  match (← tree.mem.load tree.root).right with
  | none => return (-1, HasNull.NULL)
  | some x =>
    item_by_key saves_left tree.compare_fun key (tree.mem.size + 1) tree.mem (some x) HasNull.NULL

def avl_get_item_by_key_most (tree : avl_tree κ ω) (key : κ) : C (Int × κ) :=
  get_item_by_key false tree key

def avl_get_item_by_key_least (tree : avl_tree κ ω) (key : κ) : C (Int × κ) :=
  get_item_by_key true tree key

end Neighbours

/-! ## `avl_verify`

Heights and sizes are those of nodes in memory, so a `long` holds them.
-/

def avl_verify_balance : Nat → Memory (avl_node κ ω) → Ptr → C Int
  | 0, _, _ => throw .endless
  | fuel + 1, mem, node => do
    match node with
    | none => return 0
    | some _ =>
      let n ← mem.load node
      let lh ← avl_verify_balance fuel mem n.left
      let rh ← avl_verify_balance fuel mem n.right
      if rh - lh ≠ AVL_GET_BALANCE n.rank_and_balance then return 0
      if 1 < lh - rh ∨ lh - rh < -1 then return 0
      return 1 + max lh rh

def avl_verify_parent : Nat → Memory (avl_node κ ω) → Ptr → Ptr → C Unit
  | 0, _, _, _ => throw .endless
  | fuel + 1, mem, node, parent => do
    let n ← mem.load node
    if n.parent ≠ parent then return ()
    if n.left ≠ none then avl_verify_parent fuel mem n.left node
    if n.right ≠ none then avl_verify_parent fuel mem n.right node

/-- None when the process exits. -/
def avl_verify_rank : Nat → Memory (avl_node κ ω) → Ptr → C (Option Int)
  | 0, _, _ => throw .endless
  | fuel + 1, mem, node => do
    match node with
    | none => return some 0
    | some _ =>
      let n ← mem.load node
      let some num_left ← (if n.left ≠ none then avl_verify_rank fuel mem n.left else pure (some 0))
        | return none
      let some num_right ← (if n.right ≠ none then avl_verify_rank fuel mem n.right
        else pure (some 0))
        | return none
      if AVL_GET_RANK n.rank_and_balance ≠ num_left + 1 then return none
      return some (num_left + num_right + 1)

/-- None when the process exits. -/
def avl_verify (tree : avl_tree κ ω) : C (Option Int) := do
  if tree.length ≠ 0 then
    let bound := tree.mem.size + 1
    let top := (← tree.mem.load tree.root).right
    let _ ← avl_verify_balance bound tree.mem top
    avl_verify_parent bound tree.mem top tree.root
    match ← avl_verify_rank bound tree.mem top with
    | none => return none
    | some _ => return some 0
  else return some 0

end Avl
