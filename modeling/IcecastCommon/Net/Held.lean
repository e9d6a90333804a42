import IcecastCommon.Net.Connect
import Mathlib.Data.Multiset.AddSub

/-!
# The descriptors that a program holds

A program opens sockets of all kinds with this library, and closes what it was given. What is open
in the system should be what the program holds.
-/

namespace Net

open Lib

/-! ## What is open -/

/-- What an event does to the open descriptors. -/
def play (opened : Multiset Int) : Event → Multiset Int
  | .socket ret => if ret < 0 then opened else ret ::ₘ opened
  | .close sock => opened.erase sock

/-- Only what is open is closed. -/
def Sane : Multiset Int → List Event → Prop
  | _, [] => True
  | opened, event :: events =>
    (∀ sock, event = .close sock → sock ∈ opened) ∧ Sane (play opened event) events

theorem sane_append {opened : Multiset Int} {events events' : List Event} :
    Sane opened (events ++ events') ↔ Sane opened events ∧
      Sane (events.foldl play opened) events' := by
  induction events generalizing opened with
  | nil => simp [Sane]
  | cons event events ih => simp [Sane, ih, and_assoc]

/-- The program, with what it was given and has not closed. -/
structure Process where
  kernel : Kernel
  held : Multiset Int

/-- Every descriptor that is open is held, and nothing else was closed. -/
structure Balanced (s : Process) : Prop where
  opened : s.kernel.events.foldl play 0 = s.held
  sane : Sane 0 s.kernel.events

/-- The result of a call is kept if it is a descriptor. -/
def Process.given (s : Process) (r : Int × Kernel) : Process :=
  { kernel := r.2, held := if r.1 < 0 then s.held else r.1 ::ₘ s.held }

/-- The program closes only what it holds. -/
def Process.close (s : Process) (sock : Int) : Process :=
  if sock ∈ s.held then { kernel := sock_close sock s.kernel, held := s.held.erase sock } else s

section Balance

variable {s : Process} {r : Int × Kernel} {l : List Event} {n : Nat}

theorem not_neg (n : Nat) : ¬ (n : Int) < 0 := Int.not_lt.mpr (Int.natCast_nonneg n)

theorem Tidy.balance {ret : Int} (h : Tidy l ret) (opened : Multiset Int) :
    l.foldl play opened = (if ret < 0 then opened else ret ::ₘ opened) ∧ Sane opened l := by
  induction h with
  | none => exact ⟨(if_pos (by decide : SOCK_ERROR < 0)).symm, trivial⟩
  | returned n => exact ⟨by simp [play], by simp [Sane]⟩
  | refused _ ih => exact ⟨ih.1, by simp, ih.2⟩
  | closed n _ ih =>
    have hplay : play (play opened (.socket n)) (.close n) = opened := by simp [play, not_neg n]
    refine ⟨?_, by simp, by simp [play, not_neg n], ?_⟩
    · rw [List.foldl_cons, List.foldl_cons, hplay]
      exact ih.1
    · rw [hplay]
      exact ih.2

theorem Balanced.given (h : Balanced s) (hr : Clean s.kernel r) : Balanced (s.given r) := by
  obtain ⟨l, hl, htidy⟩ := hr
  obtain ⟨hopened, hsane⟩ := htidy.balance s.held
  constructor
  · show r.2.events.foldl play 0 = _
    rw [hl, List.foldl_append, h.opened, hopened]
    rfl
  · show Sane 0 r.2.events
    rw [hl, sane_append, h.opened]
    exact ⟨h.sane, hsane⟩

theorem Balanced.close (h : Balanced s) (sock : Int) : Balanced (s.close sock) := by
  unfold Process.close
  split_ifs with hheld
  · constructor
    · show (s.kernel.events ++ [Event.close sock]).foldl play 0 = _
      rw [List.foldl_append, h.opened]
      rfl
    · show Sane 0 (s.kernel.events ++ [.close sock])
      rw [sane_append, h.opened]
      refine ⟨h.sane, fun sock' heq => ?_, trivial⟩
      cases heq
      exact hheld
  · exact h

theorem Balanced.unbalanced (h : Balanced s) (hevents : r.2.events = s.kernel.events ++ l)
    (hbad : Sane s.held l → l.foldl play s.held ≠ (s.given r).held) : ¬ Balanced (s.given r) := by
  rintro ⟨hopened, hsane⟩
  replace hopened : r.2.events.foldl play 0 = _ := hopened
  replace hsane : Sane 0 r.2.events := hsane
  rw [hevents, List.foldl_append, h.opened] at hopened
  rw [hevents, sane_append, h.opened] at hsane
  exact hbad hsane.2 hopened

theorem Balanced.lost (h : Balanced s) (hevents : r.2.events = s.kernel.events ++ [.socket n])
    (hret : r.1 < 0) :
    ¬ Balanced (s.given r) := by
  refine h.unbalanced hevents fun _ heq => ?_
  have hcard := congrArg Multiset.card heq
  simp [play, Process.given, hret, not_neg n] at hcard

theorem Balanced.dead (h : Balanced s)
    (hevents : r.2.events = s.kernel.events ++ [.socket n, .close n]) (hret : ¬ r.1 < 0) :
    ¬ Balanced (s.given r) := by
  refine h.unbalanced hevents fun _ heq => ?_
  have hcard := congrArg Multiset.card heq
  simp [play, Process.given, hret, not_neg n] at hcard

theorem Balanced.twice (h : Balanced s)
    (hevents : r.2.events = s.kernel.events ++ [.socket n, .close n, .close n])
    (hret : r.1 < 0) : ¬ Balanced (s.given r) := by
  refine h.unbalanced hevents fun hsane heq => ?_
  have hmem : (n : Int) ∈ s.held := by simpa [Sane, play, not_neg n] using hsane
  have hcard := congrArg Multiset.card heq
  have hpos := Multiset.card_pos_iff_exists_mem.mpr ⟨_, hmem⟩
  simp [play, Process.given, hret, not_neg n, Multiset.card_erase_of_mem hmem] at hcard
  omega

end Balance

/-! ## The calls -/

namespace Getaddrinfo

/-- What the program can call, with the answers of the system. -/
inductive Call where
  | sock_connect_wto_bind (getaddrinfo : Option CString → Bytes → Option (List Attempt))
      (hostname : Option CString)
      (port : Int) (bnd : Option CString) (timeout : Int)
  | sock_connect_non_blocking (getaddrinfo : Option CString → Bytes → Option (List Knock))
      (hostname : Option CString) (port : Int)
  | sock_get_server_socket (getaddrinfo : Option CString → Bytes → Option (List Seat)) (port : Int)
      (sinterface : Option CString)
  | sock_accept (a : Caller) (ip : Bool) (len : Nat)
  | sock_close (sock : Int)

def call (s : Process) : Call → C Process
  | .sock_connect_wto_bind getaddrinfo hostname port bnd timeout => do
    return s.given (← sock_connect_wto_bind getaddrinfo hostname port bnd timeout s.kernel)
  | .sock_connect_non_blocking getaddrinfo hostname port =>
    return s.given (sock_connect_non_blocking getaddrinfo hostname port s.kernel)
  | .sock_get_server_socket getaddrinfo port sinterface => do
    return s.given (← sock_get_server_socket getaddrinfo port sinterface s.kernel)
  | .sock_accept a ip len =>
    let (ret, _, k) := sock_accept true a ip len s.kernel
    return s.given (ret, k)
  | .sock_close sock => return s.close sock

end Getaddrinfo

namespace Gethostbyname

inductive Call where
  | sock_connect_wto_bind (lib : Resolver) (a : Answers) (hostname : Option CString) (port : Int)
      (bnd : Option CString) (timeout : Int)
  | sock_connect_non_blocking (lib : Resolver) (answer : Option Nat) (nonblocking : Control)
      (connect : Option Int) (hostname : Option CString) (port : Int)
  | sock_get_server_socket (lib : Resolver) (answer : Option Nat) (bind : Bool) (port : Int)
      (sinterface : Option CString)
  | sock_accept (a : Caller) (ip : Bool) (len : Nat)
  | sock_close (sock : Int)

def call (s : Process) : Call → C Process
  | .sock_connect_wto_bind lib a hostname port bnd timeout => do
    return s.given (← sock_connect_wto_bind lib a hostname port bnd timeout s.kernel)
  | .sock_connect_non_blocking lib answer nonblocking connect hostname port => do
    return s.given
      (← sock_connect_non_blocking lib answer nonblocking connect hostname port s.kernel)
  | .sock_get_server_socket lib answer bind port sinterface =>
    return s.given (sock_get_server_socket lib answer bind port sinterface s.kernel)
  | .sock_accept a ip len =>
    let (ret, _, k) := sock_accept false a ip len s.kernel
    return s.given (ret, k)
  | .sock_close sock => return s.close sock

section Calls

variable {lib : Resolver} {hostname sinterface bnd : Option CString} {port timeout : Int}
  {answer : Option Nat} {bind : Bool} {nonblocking : Control} {connect : Option Int} {a : Answers}
  {k : Kernel} {s : Process}

end Calls

end Gethostbyname

/-! ## Runs -/

/-- Nothing has been opened yet. -/
def fresh (blocking : Int → Bool) (errno : Int) : Process := ⟨⟨[], blocking, errno⟩, 0⟩

end Net
