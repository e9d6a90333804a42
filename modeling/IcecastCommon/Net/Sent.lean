import IcecastCommon.Net.Code

/-!
# What `sock_writev` sends
-/

namespace Net

open Lib

/-! ## The buffers -/

/-- The bytes of an entry. A null pointer has none. -/
def Iovec.data (v : Iovec) : Bytes := (v.iov_base.getD []).take v.iov_len

/-- The bytes of all entries. -/
def buffers (iov : List Iovec) : Bytes := iov.flatMap Iovec.data

theorem buffers_cons (v : Iovec) (rest : List Iovec) :
    buffers (v :: rest) = v.data ++ buffers rest := List.flatMap_cons

theorem data_eq_nil {v : Iovec} (h : ¬ (v.iov_base.isSome ∧ v.iov_len ≠ 0)) : v.data = [] := by
  unfold Iovec.data
  cases hbase : v.iov_base with
  | none => exact List.take_nil
  | some block =>
    have hlen : v.iov_len = 0 := by simpa [hbase] using h
    rw [hlen, List.take_zero]

/-! ## The loop -/

theorem send_cases (sock : Outlet) (data : Bytes) :
    (∃ answers, send sock data = (-1, { sock with answers })) ∨
      ∃ n ≤ data.length, ∃ answers, send sock data =
      ((n : Int), { sent := sock.sent ++ data.take n, answers }) := by
  unfold send
  cases sock.answers 0 with
  | none => exact .inl ⟨_, rfl⟩
  | some n =>
    refine .inr ⟨min n data.length, Nat.min_le_right _ _, fun call => sock.answers (call + 1), ?_⟩
    rw [← List.take_eq_take_min]

theorem sock_write_bytes_cases (sock : Outlet) {v : Iovec}
    (hsend : v.iov_base.isSome ∧ v.iov_len ≠ 0) (hfits : v.data.length < 2 ^ 31) :
    v.data.length = v.iov_len ∧
    ((∃ answers, sock_write_bytes sock v.iov_base v.iov_len = .ok (-1, { sock with answers })) ∨
      ∃ n ≤ v.iov_len, ∃ answers,
        sock_write_bytes sock v.iov_base v.iov_len =
        .ok ((n : Int), { sent := sock.sent ++ v.data.take n, answers })) := by
  obtain ⟨hbase, hlen⟩ := hsend
  obtain ⟨block, hblock⟩ := Option.isSome_iff_exists.mp hbase
  have hinside := v.inside block hblock
  have hdata : v.data = block.take v.iov_len := by rw [Iovec.data, hblock, Option.getD_some]
  have hlength : v.data.length = v.iov_len := by
    rw [hdata, List.length_take, Nat.min_eq_left hinside]
  have hwrite : sock_write_bytes sock v.iov_base v.iov_len =
      .ok ((send sock v.data).1.bmod (2 ^ 32), (send sock v.data).2) := by
    unfold sock_write_bytes
    rw [hblock, hdata]
    simp only [Nat.le_zero, if_neg hlen, slice_front hinside]
    rfl
  refine ⟨hlength, ?_⟩
  rw [hwrite]
  obtain ⟨answers, hsent⟩ | ⟨n, hn, answers, hsent⟩ := send_cases sock v.data
  · exact .inl ⟨answers, by rw [hsent]; rfl⟩
  · refine .inr ⟨n, hlength ▸ hn, answers, ?_⟩
    rw [hsent, wrap_of_fits (by omega) (by omega)]

/-- A prefix of `text` was sent, behind `accum` bytes. The result is the number of bytes, or -1
where that is 0. -/
def Sends (sock : Outlet) (accum : Nat) (text : Bytes) (result : C (Int × Outlet)) : Prop :=
  ∃ ret sock' data, result = .ok (ret, sock') ∧ sock'.sent = sock.sent ++ data ∧ data <+: text ∧
    (ret = accum + data.length ∨ ret = -1 ∧ accum = 0 ∧ data = [])

theorem sends_nothing (sock : Outlet) (accum : Nat) (text : Bytes) (answers : Nat → Option Nat) :
    Sends sock accum text (.ok (accum, { sock with answers })) :=
  ⟨accum, _, [], rfl, by simp, List.nil_prefix, .inl (by simp)⟩

theorem Sends.behind {sock : Outlet} {answers : Nat → Option Nat} {accum : Nat} {data text : Bytes}
    {result : C (Int × Outlet)} (hpos : 0 < data.length)
    (h : Sends { sent := sock.sent ++ data, answers } (accum + data.length) text result) :
    Sends sock accum (data ++ text) result := by
  obtain ⟨ret, sock', more, hrun, hsent, hprefix, hret⟩ := h
  refine ⟨ret, sock', data ++ more, hrun, ?_,
    (List.prefix_append_right_inj data).mpr hprefix, .inl ?_⟩
  · rw [hsent, List.append_assoc]
  · rw [List.length_append]
    omega

/-- `i` counts the entries that are left, up to a multiple of 2^32. -/
theorem writev_loop_spec (iov : List Iovec) : ∀ (sock : Outlet) (k accum : Nat), k ≤ iov.length →
    accum + (buffers iov).length < 2 ^ 31 →
    Sends sock accum (buffers iov) (writev_loop iov ((k : Int).bmod (2 ^ 32)) accum sock) := by
  induction iov with
  | nil =>
    intro sock k accum hk _
    obtain rfl : k = 0 := Nat.le_zero.mp hk
    exact sends_nothing sock accum _ sock.answers
  | cons v rest ih =>
    intro sock k accum hk hfits
    unfold writev_loop
    by_cases hi : (k : Int).bmod (2 ^ 32) = 0
    · rw [if_pos hi]
      exact sends_nothing sock accum _ sock.answers
    have hpos : k ≠ 0 := by
      rintro rfl
      exact hi rfl
    have hnext :
        ((k : Int).bmod (2 ^ 32) - 1).bmod (2 ^ 32) = ((k - 1 : Nat) : Int).bmod (2 ^ 32) := by
      rw [Int.bmod_sub_bmod]
      congr 1
      omega
    rw [List.length_cons] at hk
    rw [buffers_cons, List.length_append] at hfits
    rw [if_neg hi, hnext]
    by_cases hsend : v.iov_base.isSome ∧ v.iov_len ≠ 0
    · have hpositive := Nat.pos_of_ne_zero hsend.2
      obtain ⟨hlength, hwrite⟩ := sock_write_bytes_cases sock hsend (by omega)
      have hlen : (v.iov_len : Int).bmod (2 ^ 32) = v.iov_len := wrap_of_fits (by omega) (by omega)
      simp only [if_pos hsend, hlen]
      obtain ⟨answers, hwrite⟩ | ⟨n, hn, answers, hwrite⟩ := hwrite
      · rw [hwrite, ok_bind]
        by_cases haccum : accum = 0
        · exact ⟨-1, _, [], if_pos ⟨rfl, by omega⟩, by simp, List.nil_prefix,
            .inr ⟨rfl, haccum, rfl⟩⟩
        · -- An error behind bytes that were sent counts as 0 bytes.
          have hsum : ((accum : Int) + 0).bmod (2 ^ 32) = accum :=
            wrap_of_fits (by omega) (by omega)
          rw [if_neg (by omega), if_pos rfl, hsum]
          simp only [if_pos (show (0 : Int) < v.iov_len by omega)]
          exact sends_nothing sock accum _ answers
      · have hsum : ((accum : Int) + n).bmod (2 ^ 32) = (accum + n : Nat) :=
          wrap_of_fits (by omega) (by omega)
        rw [hwrite, ok_bind]
        simp only [if_neg (show ¬ ((n : Int) = -1 ∧ (accum : Int) = 0) by omega),
          if_neg (show ¬ (n : Int) = -1 by omega), hsum]
        by_cases hpart : n < v.iov_len
        · rw [if_pos (by omega)]
          refine ⟨_, _, v.data.take n, rfl, rfl, ?_, .inl ?_⟩
          · exact (List.take_prefix n v.data).trans (List.prefix_append v.data _)
          · rw [List.length_take]
            omega
        · obtain rfl : n = v.data.length := by omega
          rw [if_neg (by omega), List.take_length]
          exact (ih _ (k - 1) (accum + v.data.length) (by omega) (by omega)).behind (by omega)
    · simp only [if_neg hsend]
      rw [buffers_cons, data_eq_nil hsend, List.nil_append]
      exact ih sock (k - 1) accum (by omega) (by omega)

/-- The network gets a prefix of the buffers, and `sock_writev` returns its length, or -1 where that
is 0. -/
theorem sock_writev_prefix (sock : Outlet) (iov : List Iovec)
    (hfits : (buffers iov).length < 2 ^ 31) :
    ∃ ret sock' data, sock_writev sock iov iov.length = .ok (ret, sock') ∧
      sock'.sent = sock.sent ++ data ∧ data <+: buffers iov ∧
      (ret = data.length ∨ ret = -1 ∧ data = []) := by
  obtain ⟨ret, sock', data, hloop, hsent, hprefix, hret⟩ :=
    writev_loop_spec iov sock iov.length 0 (Nat.le_refl _) (by omega)
  refine ⟨ret, sock', data, hloop, hsent, hprefix, ?_⟩
  obtain hret | ⟨hret, -, hdata⟩ := hret
  · exact .inl (by omega)
  · exact .inr ⟨hret, hdata⟩

/-- Two of the five bytes are sent, behind a null pointer and in front of an empty buffer. -/
theorem sock_writev_prefix_short :
    ∃ ret sock' data, sock_writev ⟨[], fun _ => some 2⟩
        [⟨none, 4, nofun⟩, ⟨some [1, 2, 3], 3, by decide⟩, ⟨some [], 0, by decide⟩,
          ⟨some [4, 5], 2, by decide⟩] 4 =
          .ok (ret, sock') ∧
      sock'.sent = [] ++ data ∧
      data <+: buffers [⟨none, 4, nofun⟩, ⟨some [1, 2, 3], 3, by decide⟩, ⟨some [], 0, by decide⟩,
      ⟨some [4, 5], 2, by decide⟩] ∧
      (ret = data.length ∨ ret = -1 ∧ data = []) :=
  sock_writev_prefix _ [⟨none, 4, nofun⟩, ⟨some [1, 2, 3], 3, by decide⟩, ⟨some [], 0, by decide⟩,
    ⟨some [4, 5], 2, by decide⟩] (by decide)

end Net
