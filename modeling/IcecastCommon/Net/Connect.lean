import IcecastCommon.Lib.Run
import IcecastCommon.Net.Code

/-!
# Descriptors and modes while connecting
-/

namespace Net

open Lib

/-! ## What becomes of the descriptors -/

/-- Each descriptor is closed before the next call of `socket`, and nothing else is. The one that is
returned is open. -/
inductive Tidy : List Event → Int → Prop
  | none : Tidy [] SOCK_ERROR
  | returned (n : Nat) : Tidy [.socket n] n
  | refused {l : List Event} {ret : Int} : Tidy l ret → Tidy (.socket (-1) :: l) ret
  | closed {l : List Event} {ret : Int} (n : Nat) : Tidy l ret →
      Tidy (.socket n :: .close n :: l) ret

/-- A call that starts in the state `k` and returns `r.1` leaves behind what it should. -/
def Clean (k : Kernel) (r : Int × Kernel) : Prop := ∃ l, r.2.events = k.events ++ l ∧ Tidy l r.1

theorem Clean.next {k k' : Kernel} {r : Int × Kernel} {l : List Event} (h : Clean k' r)
    (hevents : k'.events = k.events ++ l) (htidy : ∀ {l'}, Tidy l' r.1 → Tidy (l ++ l') r.1) :
    Clean k r := by
  obtain ⟨l', hl', h⟩ := h
  exact ⟨l ++ l', by rw [hl', hevents, List.append_assoc], htidy h⟩

theorem socket_ne_error (n : Nat) : (n : Int) ≠ SOCK_ERROR := by
  unfold SOCK_ERROR
  omega

namespace Getaddrinfo

end Getaddrinfo

/-! ## The helper that closes too -/

namespace Gethostbyname

variable {lib : Resolver} {a : Answers} {hostname bnd : Option CString}
  {port timeout : Int} {k : Kernel}

/-- There is a name and a port to connect to. -/
def Named (hostname : Option CString) (port : Int) : Prop :=
  ∃ name, hostname = some name ∧ name.bytes ≠ [] ∧ port % 2 ^ 32 ≠ 0

/-- The socket is there and bound, and there is something to connect to. -/
def Asked (lib : Resolver) (a : Answers) (hostname : Option CString) (port : Int)
    (bnd : Option CString) : Prop :=
  a.socket ≠ none ∧ (∀ name ∈ bnd, lib.inet_aton name.bytes ∧ a.bind) ∧ Named hostname port

end Gethostbyname

/-- The mode of the socket is what was asked for. -/
def Control.works (c : Control) : Bool := c.getsockopt && c.fcntl

/-- A wait after which `connect_loop` waits again. -/
def Wait.interrupted : Wait → Bool
  | .timeout => false
  | .failed errno => sock_recoverable errno
  | .ready val => val ≠ 0 && sock_recoverable val
  | .unknown errno => sock_recoverable errno

theorem sock_set_blocking_mode (c : Control) (sock : Int) {block : Int}
    (hblock : 0 ≤ block ∧ block ≤ 1) (k : Kernel) :
    (sock_set_blocking c sock block k).2.blocking sock = if c.works then decide (block ≠ 0)
      else k.blocking sock := by
  obtain ⟨valid, fcntl⟩ := c
  have hrange : ¬ block < 0 ∧ ¬ block > 1 := by omega
  cases valid <;> cases fcntl <;> simp [sock_set_blocking, sock_valid_socket, Control.works, hrange]

theorem sock_connected_cases (answer : Wait) (k : Kernel) :
    (sock_connected answer k).2.blocking = k.blocking ∧
      (answer.interrupted = true ∧ (sock_connected answer k).1 = 0 ∧
      sock_recoverable (sock_connected answer k).2.errno = true ∨
        answer = .ready 0 ∧ (sock_connected answer k).1 = 1 ∨
        answer.interrupted = false ∧ answer ≠ .ready 0 ∧ (sock_connected answer k).1 < 0) := by
  cases answer with
  | timeout => exact ⟨rfl, .inr (.inr ⟨rfl, nofun, show SOCK_TIMEOUT < 0 by decide⟩)⟩
  | failed errno | unknown errno =>
    refine ⟨rfl, ?_⟩
    by_cases herrno : sock_recoverable errno = true
    · exact .inl ⟨herrno, if_pos herrno, herrno⟩
    · exact .inr (.inr ⟨Bool.eq_false_iff.mpr herrno, nofun, (if_neg herrno).trans_lt (by decide)⟩)
  | ready val =>
    unfold sock_connected
    by_cases hval : val = 0
    · rw [hval]
      exact ⟨rfl, .inr (.inl ⟨rfl, rfl⟩)⟩
    · simp only [if_neg hval]
      refine ⟨trivial, ?_⟩
      by_cases hrecoverable : sock_recoverable val = true
      · exact .inl ⟨by simp [Wait.interrupted, hval, hrecoverable], if_pos hrecoverable,
          hrecoverable⟩
      · exact .inr
          (.inr ⟨by simp [Wait.interrupted, hrecoverable], by simpa using hval,
          (if_neg hrecoverable).trans_lt (by decide)⟩)

namespace Getaddrinfo

/-- The first wait that was not interrupted. -/
def Attempt.settled (a : Attempt) : Option Wait := a.waits.find? fun answer => !answer.interrupted

/-- It waits for the connection, and gets it. -/
def Attempt.Delayed (a : Attempt) : Prop :=
  ∃ errno, a.connect = some errno ∧ sock_recoverable errno = true ∧ a.settled = some (.ready 0)

/-- It waits in vain, or not at all. -/
def Attempt.Failed (a : Attempt) : Prop :=
  ∃ errno, a.connect = some errno ∧
    (sock_recoverable errno = false ∨ ∃ answer, a.settled = some answer ∧ answer ≠ .ready 0)

def Attempt.Bound (bnd : Option CString) (a : Attempt) : Prop :=
  bnd = none ∨ a.getaddrinfo = true ∧ a.bind = true

/-- The next address is tried. -/
def Attempt.Passed (bnd : Option CString) (a : Attempt) : Prop :=
  a.socket = none ∨ a.Bound bnd ∧ a.Failed

/-- It connects, and stays in the mode that was set for the wait. -/
def Attempt.Stuck (bnd : Option CString) (timeout : Int) (a : Attempt) : Prop :=
  a.socket ≠ none ∧ a.Bound bnd ∧ 0 < timeout ∧ a.nonblocking.works = true ∧
    (a.connect = none ∨ a.Delayed ∧ a.blocking.works = false)

/-- Of the addresses, the one that connects is stuck. -/
def Unrestored (bnd : Option CString) (timeout : Int) (ai : List Attempt) : Prop :=
  ∃ pre a post, ai = pre ++ a :: post ∧ (∀ b ∈ pre, b.Passed bnd) ∧ a.Stuck bnd timeout

section Mode

variable {bnd : Option CString} {timeout : Int} {a : Attempt} {ai : List Attempt}

theorem not_unrestored_nil : ¬ Unrestored bnd timeout [] := by
  rintro ⟨pre, a, post, h, -⟩
  exact absurd h (by simp)

theorem unrestored_cons :
    Unrestored bnd timeout (a :: ai) ↔ a.Stuck bnd timeout ∨ a.Passed bnd ∧
      Unrestored bnd timeout ai := by
  constructor
  · rintro ⟨_ | ⟨b, pre⟩, c, post, h, hpre, hc⟩
    · cases h
      exact .inl hc
    · cases h
      rw [List.forall_mem_cons] at hpre
      exact .inr ⟨hpre.1, pre, c, post, rfl, hpre.2, hc⟩
  · rintro (h | ⟨h, pre, c, post, rfl, hpre, hc⟩)
    · exact ⟨[], a, ai, rfl, by simp, h⟩
    · exact ⟨a :: pre, c, post, rfl, List.forall_mem_cons.mpr ⟨h, hpre⟩, hc⟩

theorem Attempt.Failed.not_delayed (h : a.Failed) : ¬ a.Delayed := by
  rintro ⟨errno, herrno, hrecoverable, hready⟩
  obtain ⟨errno', herrno', h⟩ := h
  obtain rfl := Option.some.inj (herrno.symm.trans herrno')
  obtain h | ⟨answer, hanswer, h⟩ := h
  · exact nomatch hrecoverable.symm.trans h
  · exact h (Option.some.inj (hanswer.symm.trans hready))

/-! What becomes of an address, by how its calls end. -/

theorem Attempt.unbound_ends (timeout : Int) (hsocket : a.socket ≠ none) (hbound : ¬ a.Bound bnd) :
    ¬ a.Passed bnd ∧ ¬ a.Stuck bnd timeout := by
  refine ⟨?_, fun h => hbound h.2.1⟩
  rintro (h | h)
  · exact hsocket h
  · exact hbound h.1

theorem Attempt.at_once_ends (timeout : Int) (hsocket : a.socket ≠ none) (hbound : a.Bound bnd)
    (hconnect : a.connect = none) :
    ¬ a.Passed bnd ∧ (a.Stuck bnd timeout ↔ 0 < timeout ∧ a.nonblocking.works = true) := by
  refine ⟨?_, fun h => ⟨h.2.2.1, h.2.2.2.1⟩, fun h => ⟨hsocket, hbound, h.1, h.2, .inl hconnect⟩⟩
  rintro (h | ⟨-, errno, herrno, -⟩)
  · exact hsocket h
  · exact nomatch hconnect.symm.trans herrno

theorem Attempt.Delayed.ends (timeout : Int) (hsocket : a.socket ≠ none) (hbound : a.Bound bnd)
    (h : a.Delayed) :
    ¬ a.Passed bnd ∧
      (a.Stuck bnd timeout ↔ 0 < timeout ∧ a.nonblocking.works = true ∧
      a.blocking.works = false) := by
  refine ⟨fun hpassed => hpassed.elim hsocket fun hfailed => hfailed.2.not_delayed h,
    fun hstuck => ?_,
    fun hmode => ⟨hsocket, hbound, hmode.1, hmode.2.1, .inr ⟨h, hmode.2.2⟩⟩⟩
  obtain ⟨errno, hconnect, -⟩ := h
  obtain ⟨-, -, htimeout, hnonblocking, hnone | ⟨-, hblocking⟩⟩ := hstuck
  · exact nomatch hconnect.symm.trans hnone
  · exact ⟨htimeout, hnonblocking, hblocking⟩

theorem Attempt.Failed.ends (timeout : Int) (hbound : a.Bound bnd) (h : a.Failed) :
    a.Passed bnd ∧ ¬ a.Stuck bnd timeout := by
  refine ⟨.inr ⟨hbound, h⟩, ?_⟩
  rintro ⟨-, -, -, -, hnone | ⟨hdelayed, -⟩⟩
  · obtain ⟨errno, hconnect, -⟩ := h
    exact nomatch hconnect.symm.trans hnone
  · exact h.not_delayed hdelayed

theorem switched_mode (a : Attempt) (timeout sock : Int) (k : Kernel)
    (hk : k.blocking sock = true) :
    (if timeout > 0 then (sock_set_blocking a.nonblocking sock 0 k).2 else k).blocking sock = true ↔
      ¬ (0 < timeout ∧ a.nonblocking.works = true) := by
  by_cases htimeout : 0 < timeout
  · rw [if_pos htimeout, sock_set_blocking_mode a.nonblocking sock (by decide), hk]
    cases a.nonblocking.works <;> simp [htimeout]
  · rw [if_neg htimeout]
    simp [htimeout, hk]

/-- The loop ends as the first wait that is not interrupted does. -/
theorem connect_loop_mode (timeout sock : Int) (blocking : Control) (waits : List Wait)
    (k : Kernel) :
    Yields (connect_loop timeout sock blocking waits k) fun r =>
      r.1 = sock ∧
      (sock_recoverable k.errno = true ∧
      waits.find? (fun answer => !answer.interrupted) = some (.ready 0)) ∧
          r.2.blocking sock = (if 0 ≤ timeout ∧ blocking.works = true then true
          else k.blocking sock) ∨
        r.1 = SOCK_ERROR ∧ (sock_recoverable k.errno = false ∨
          ∃ answer, waits.find? (fun answer => !answer.interrupted) = some answer ∧
          answer ≠ .ready 0) := by
  induction waits generalizing k with
  | nil =>
    unfold connect_loop
    refine yields_ite (fun _ => yields_error _) fun herrno => yields_ok (.inr ⟨rfl, .inl ?_⟩)
    exact Bool.eq_false_iff.mpr herrno
  | cons answer waits ih =>
    unfold connect_loop
    dsimp only
    obtain ⟨hmode, hcases⟩ := sock_connected_cases answer k
    generalize sock_connected answer k = p at hmode hcases ⊢
    obtain ⟨connected, k'⟩ := p
    dsimp only at hmode hcases ⊢
    by_cases herrno : sock_recoverable k.errno = true
    · rw [if_pos herrno]
      obtain ⟨hinterrupted, rfl, herrno'⟩ | ⟨rfl, rfl⟩ | ⟨hinterrupted, hready, hneg⟩ := hcases
      · rw [if_pos rfl, List.find?_cons_of_neg (by simp [hinterrupted])]
        intro r hr
        obtain ⟨hsock, ⟨-, hfind⟩, hmode'⟩ | ⟨hsock, herrno'' | hfind⟩ := ih k' r hr
        · exact .inl ⟨hsock, ⟨herrno, hfind⟩, hmode ▸ hmode'⟩
        · exact absurd herrno' (by simp [herrno''])
        · exact .inr ⟨hsock, .inr hfind⟩
      · rw [if_neg (by decide), if_pos rfl, List.find?_cons_of_pos (by decide)]
        refine yields_ok (.inl ⟨rfl, ⟨herrno, rfl⟩, ?_⟩)
        by_cases htimeout : 0 ≤ timeout
        · rw [if_pos htimeout, sock_set_blocking_mode blocking sock (by decide), hmode]
          simp [htimeout]
        · rw [if_neg htimeout, if_neg fun h => htimeout h.1, hmode]
      · rw [if_neg (by omega), if_neg (by omega), List.find?_cons_of_pos (by simp [hinterrupted])]
        exact yields_ok (.inr ⟨rfl, .inr ⟨answer, rfl, hready⟩⟩)
    · rw [if_neg herrno]
      exact yields_ok (.inr ⟨rfl, .inl (Bool.eq_false_iff.mpr herrno)⟩)

theorem address_loop_mode (bnd : Option CString) (timeout : Int) (ai : List Attempt) (k : Kernel) :
    Yields (address_loop bnd timeout ai SOCK_ERROR k) fun r =>
      (r.1 ≠ SOCK_ERROR → r.2.blocking r.1 = true) ↔ ¬ Unrestored bnd timeout ai := by
  induction ai generalizing k with
  | nil => exact yields_ok (iff_of_true (fun h => absurd rfl h) not_unrestored_nil)
  | cons a ai ih =>
    unfold address_loop socket
    rw [unrestored_cons]
    cases ha : a.socket with
    | none =>
      have hstuck : ¬ a.Stuck bnd timeout := fun h => h.1 ha
      have hpassed : a.Passed bnd := .inl ha
      simp only [hstuck, hpassed, false_or, true_and]
      exact ih _
    | some n =>
      have hn : (n : Int) ≠ SOCK_ERROR := socket_ne_error n
      dsimp only
      rw [if_pos (Int.natCast_nonneg n)]
      have hmode := switched_mode a timeout n
        { k with events := k.events ++ [.socket n], blocking := Function.update k.blocking n true }
          (Function.update_self ..)
      generalize (if timeout > 0 then _ else _ : Kernel) = k1 at hmode ⊢
      have hsocket : a.socket ≠ none := by simp [ha]
      refine yields_ite (fun hbnd => yields_ok ?_) fun hbnd => ?_
      · have hbound : ¬ a.Bound bnd := by
          rintro (rfl | ⟨hgetaddrinfo, hbind⟩)
          · simp at hbnd
          · simp [hgetaddrinfo, hbind] at hbnd
        obtain ⟨hpassed, hstuck⟩ := a.unbound_ends timeout hsocket hbound
        exact iff_of_true (fun h => absurd rfl h) fun h => h.elim hstuck fun h => hpassed h.1
      have hbound : a.Bound bnd := by
        cases bnd with
        | none => exact .inl rfl
        | some name => exact .inr (by simpa using hbnd)
      cases hconnect : a.connect with
      | none =>
        obtain ⟨hpassed, hstuck⟩ := a.at_once_ends timeout hsocket hbound hconnect
        refine yields_ok ?_
        rw [imp_iff_right hn, hmode, hstuck, or_iff_left fun h => hpassed h.1]
      | some errno =>
        refine (connect_loop_mode timeout n a.blocking a.waits { k1 with errno }).bind
          fun r hr => ?_
        obtain ⟨hsock, ⟨hrecoverable, hsettled⟩, hmode'⟩ | ⟨hsock, hfailed⟩ := hr
        · have hdelayed : a.Delayed := ⟨errno, hconnect, hrecoverable, hsettled⟩
          obtain ⟨hpassed, hstuck⟩ := hdelayed.ends timeout hsocket hbound
          rw [hsock, if_pos hn]
          refine yields_ok ?_
          rw [imp_iff_right hn, hmode', hstuck, or_iff_left fun h => hpassed h.1]
          by_cases hback : 0 ≤ timeout ∧ a.blocking.works = true
          · rw [if_pos hback]
            exact iff_of_true rfl fun h => nomatch hback.2.symm.trans h.2.2
          · rw [if_neg hback, show (Kernel.blocking { k1 with errno }) = k1.blocking from rfl,
              hmode]
            refine not_congr ⟨fun h => ⟨h.1, h.2, ?_⟩, fun h => ⟨h.1, h.2.1⟩⟩
            exact Bool.eq_false_iff.mpr fun hworks => hback ⟨h.1.le, hworks⟩
        · have hfailed : a.Failed := ⟨errno, hconnect, hfailed⟩
          obtain ⟨hpassed, hstuck⟩ := hfailed.ends timeout hbound
          rw [hsock, if_neg (by simp)]
          simp only [hstuck, hpassed, false_or, true_and]
          exact ih _

end Mode

/-! ## Whole calls -/

section Call

variable {getaddrinfo : Option CString → Bytes → Option (List Attempt)}
  {hostname bnd : Option CString} {port timeout : Int} {k k' : Kernel} {sock : Int}

theorem connect_loop_returns {waits : List Wait}
    (h : waits.find? (fun answer => !answer.interrupted) ≠ none) (blocking : Control) :
    Succeeds (connect_loop timeout sock blocking waits k) fun _ => True := by
  induction waits generalizing k with
  | nil => exact absurd rfl h
  | cons answer waits ih =>
    unfold connect_loop
    dsimp only
    split_ifs with herrno hzero hone
    · obtain ⟨hinterrupted, -⟩ | ⟨-, hone⟩ | ⟨-, -, hneg⟩ := (sock_connected_cases answer k).2
      · rw [List.find?_cons_of_neg (by simp [hinterrupted])] at h
        exact ih h
      · omega
      · omega
    all_goals exact succeeds_ok trivial

theorem address_loop_returns {ai : List Attempt} (h : ∀ a ∈ ai, a.settled ≠ none) :
    Succeeds (address_loop bnd timeout ai sock k) fun _ => True := by
  induction ai generalizing sock k with
  | nil => exact succeeds_ok trivial
  | cons a ai ih =>
    rw [List.forall_mem_cons] at h
    unfold address_loop
    dsimp only
    generalize (if timeout > 0 then _ else _ : Kernel) = k1
    split_ifs
    · exact succeeds_ok trivial
    · cases a.connect with
      | none => exact succeeds_ok trivial
      | some errno =>
        refine (connect_loop_returns h.1 a.blocking).bind fun r _ => ?_
        split_ifs
        · exact succeeds_ok trivial
        · exact ih h.2
    · exact ih h.2

/-- A call returns unless a wait is interrupted again and again. -/
theorem sock_connect_wto_bind_returns
    (h : ∀ head, getaddrinfo hostname (service port) = some head → ∀ a ∈ head, a.settled ≠ none) :
    Succeeds (sock_connect_wto_bind getaddrinfo hostname port bnd timeout k) fun _ => True := by
  unfold sock_connect_wto_bind
  cases hhead : getaddrinfo hostname (service port) with
  | none => exact succeeds_ok trivial
  | some head => exact address_loop_returns (h head hhead)

/-- The socket is handed back in blocking mode, unless it was put in the other mode and then
connected at once. -/
theorem handed_back_blocking_iff
    (hcall : sock_connect_wto_bind getaddrinfo hostname port bnd timeout k = .ok (sock, k')) :
    (sock ≠ SOCK_ERROR → k'.blocking sock = true) ↔
      ∀ head, getaddrinfo hostname (service port) = some head → ¬ Unrestored bnd timeout head := by
  unfold sock_connect_wto_bind at hcall
  cases hhead : getaddrinfo hostname (service port) with
  | none =>
    rw [hhead] at hcall
    obtain ⟨rfl, rfl⟩ := Prod.mk.inj (Except.ok.inj hcall)
    exact iff_of_true (fun h => absurd rfl h) nofun
  | some head =>
    rw [hhead] at hcall
    refine (address_loop_mode bnd timeout head k _ hcall).trans
      ⟨fun h head' hhead' => ?_, fun h => h head rfl⟩
    exact Option.some.inj hhead' ▸ h

end Call

/-- The connection is there after a wait that was interrupted once. -/
theorem handed_back_blocking_waited :
    ((3 : Int) ≠ SOCK_ERROR →
      Function.update
    (Function.update (Function.update (fun _ => false) 3 true) 3 false) 3 true 3 = true) ↔
      ∀ head,
        some [(⟨some 3, ⟨true, true⟩, true, true, some EINPROGRESS, [.failed EINTR, .ready 0],
          ⟨true, true⟩⟩ : Attempt)] = some head →
        ¬ Unrestored none 1 head :=
  @handed_back_blocking_iff
    (fun _ _ =>
      some [⟨some 3, ⟨true, true⟩, true, true, some EINPROGRESS, [.failed EINTR, .ready 0],
      ⟨true, true⟩⟩])
    (some ⟨ascii "x", by decide⟩) none 80 1 ⟨[], fun _ => false, 0⟩ _ 3 rfl

/-- `connect` returned 0 at once. -/
theorem handed_back_nonblocking :
    ¬ ∀ (getaddrinfo : Option CString → Bytes → Option (List Attempt))
      (hostname bnd : Option CString)
    (port timeout : Int) (k k' : Kernel) (sock : Int),
    sock_connect_wto_bind getaddrinfo hostname port bnd timeout k = .ok (sock, k') →
      sock ≠ SOCK_ERROR → k'.blocking sock = true := by
  intro h
  have hblocking :=
    h (fun _ _ => some [⟨some 3, ⟨true, true⟩, true, true, none, [], ⟨true, true⟩⟩])
      (some ⟨ascii "x", by decide⟩)
    none 80 1 ⟨[], fun _ => true, 0⟩ _ 3 rfl (by decide)
  exact absurd hblocking (by decide)

end Getaddrinfo

end Net
