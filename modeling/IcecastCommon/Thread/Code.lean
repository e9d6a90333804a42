import IcecastCommon.Avl.Failure
import Mathlib.Logic.Function.Basic

/-!
# The code of `thread/thread.c`

Threads, their records and the tree of records. What a thread does under the lock of the tree is one
step, and so is each call of the system. Names, places and times of creation are left out: no
function here reads them.
-/

namespace Thread

open Lib Avl

abbrev pthread_t := Nat

structure thread_type where
  thread_id : Nat
  sys_thread : pthread_t
  detached : Bool
deriving DecidableEq, Repr

/-- A pointer to a record stands for the record, which does not change while it is in the tree. -/
abbrev Key := Option thread_type

instance : HasNull Key := ⟨none⟩

/-- Only pointers to records are compared. -/
def id_of : Key → Int
  | none => -1
  | some t => t.thread_id

def _compare_threads (a b : Key) : Int :=
  if id_of a > id_of b then 1 else if id_of a < id_of b then -1 else 0

/-- `while (node)` -/
def self_loop (m : Memory (avl_node Key (BitVec 32))) (sys_thread : pthread_t) : Nat → Ptr → C Key
  | _, none => return none
  | 0, some _ => throw .endless
  | fuel + 1, some node => do
    let th := (← m.load (some node)).key
    if th.map thread_type.sys_thread = some sys_thread then return th
    else self_loop m sys_thread fuel (← avl_get_next m (some node))

/-- For a caller with this `pthread_t`. -/
def thread_self (tree : avl_tree Key (BitVec 32)) (sys_thread : pthread_t) : C Key := do
  self_loop tree.mem sys_thread (tree.mem.size + 1) (← avl_get_first tree)

/-! ## The life of a thread -/

inductive Phase where
  /-- `thread_create_c` has a record for it. -/
  | created
  /-- It runs, before `_start_routine` has put the record into the tree. -/
  | started
  /-- Its own start routine runs. -/
  | running
  /-- It is about to take `th` out of the tree, if that is a detached thread. -/
  | leaving (th : Key)
  | finished
  | ended
  /-- `pthread_join` has returned, and `thread_join` goes on. -/
  | joined
  | removed
deriving DecidableEq

/-- A thread with the record that was made for it. -/
structure Life where
  record : thread_type
  phase : Phase

structure Library where
  _next_thread_id : Nat
  _threadtree : avl_tree Key (BitVec 32)
  threads : Nat → Option Life
  /-- What `_free_thread` was called on. -/
  freed : List Key

def Library.put (s : Library) (t : Life) : Library :=
  { s with threads := Function.update s.threads t.record.thread_id (some t) }

/-- The system may not give its `pthread_t` to another thread. -/
def Life.in_use (t : Life) : Bool :=
  match t.phase with
  | .started | .running | .leaving _ | .finished => true
  | .ended => !t.record.detached
  | _ => false

def Library.taken (s : Library) (sys_thread : pthread_t) : Bool :=
  (List.range s._next_thread_id).any fun i =>
    (s.threads i).any fun t => t.in_use && decide (t.record.sys_thread = sys_thread)

/-- The main thread has a record with a `detached` that nothing was stored in. -/
def thread_initialize (m : Memory (avl_node Key (BitVec 32))) (reply : Option Nat)
    (sys_thread : pthread_t) (detached : Bool) : C Library :=
  match avl_tree_new _compare_threads m with
  | none => throw .null
  | some tree => do
    let thread : thread_type := { thread_id := 0, sys_thread, detached }
    let (_, tree) ← avl_insert (answered tree reply) (some thread)
    return { _next_thread_id := 1, _threadtree := tree
             threads := Function.update (fun _ => none) 0 (some ⟨thread, .running⟩)
             freed := [] }

/-- Up to the end of the locked part. -/
def thread_create_c (s : Library) (detached : Bool) : Library :=
  { s with _next_thread_id := s._next_thread_id + 1 }.put
    ⟨{ thread_id := s._next_thread_id, sys_thread := 0, detached }, .created⟩

/-- The rest of `thread_create_c`: the system may refuse, or it chooses a `pthread_t`
that is free. -/
def pthread_create (s : Library) (t : Life) (sys_thread : Option pthread_t) : Library :=
  match sys_thread with
  | none => s.put { t with phase := .removed }
  | some sys_thread =>
    if s.taken sys_thread then s else s.put ⟨{ t.record with sys_thread := sys_thread }, .started⟩

/-- The first locked part of `_start_routine`. What `avl_insert` returns is ignored. -/
def start_routine (s : Library) (t : Life) (reply : Option Nat) : C Library := do
  let (_, tree) ← avl_insert (answered s._threadtree reply) (some t.record)
  return { s with _threadtree := tree }.put { t with phase := .running }

/-- `*th`, for a pointer that was not taken from the tree just now. -/
def Library.load (s : Library) (th : thread_type) : C thread_type :=
  if some th ∈ s.freed then throw .dangling else return th

def remove (s : Library) (th : thread_type) : C Library := do
  let (_, tree, freed) ← avl_delete s._threadtree (some th) (some fun _ => 1)
  return { s with _threadtree := tree, freed := s.freed ++ freed }

/-- The end of `_start_routine` and of `thread_exit_c`, which read `th->detached`. -/
def leave (s : Library) (t : Life) (th : Key) : C Library := do
  let s ← match th with
    | some th => do
      let th ← s.load th
      if th.detached then remove s th else pure s
    | none => pure s
  return s.put { t with phase := .finished }

/-- `thread_join` up to the return of `pthread_join`, which gets `thread->sys_thread`. -/
def pthread_join (s : Library) (t : Life) : C Library := do
  let _ ← s.load t.record
  return s.put { t with phase := .joined }

/-- The last locked part of `thread_join`. -/
def thread_join (s : Library) (t : Life) : C Library := do
  let thread ← s.load t.record
  let s ← remove s thread
  return s.put { t with phase := .removed }

/-! ## Steps -/

inductive Move where
  | pthread_create (sys_thread : Option pthread_t)
  | start_routine (reply : Option Nat)
  | returns
  | thread_exit_c
  | leave
  | exit
  | pthread_join
  | thread_join

inductive Action where
  | thread_create_c (detached : Bool)
  | move (thread_id : Nat) (move : Move)

/-- A move that is not possible changes nothing. The main thread has no start routine. -/
def Library.move (s : Library) (t : Life) : Phase → Move → C Library
  | .created, .pthread_create sys_thread => return pthread_create s t sys_thread
  | .started, .start_routine reply => start_routine s t reply
  | .running, .returns =>
    return if t.record.thread_id = 0 then s else s.put { t with phase := .leaving (some t.record) }
  | .running, .thread_exit_c => do
    let th ← thread_self s._threadtree t.record.sys_thread
    return s.put { t with phase := .leaving th }
  | .leaving th, .leave => leave s t th
  | .finished, .exit => return s.put { t with phase := .ended }
  | .ended, .pthread_join => if t.record.detached then return s else pthread_join s t
  | .joined, .thread_join => thread_join s t
  | _, _ => return s

def step (s : Library) : Action → C Library
  | .thread_create_c detached => return thread_create_c s detached
  | .move thread_id move => match s.threads thread_id with
    | none => return s
    | some t => s.move t t.phase move

end Thread
