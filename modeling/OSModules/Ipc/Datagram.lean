/-
  `socket_client.c` and `socket_server.c`: a file is sent through a datagram socket, and what
  was received is printed.  Datagrams arrive whole and in order.
-/
import OSModules.Lib.CString

namespace Datagram

open CString

abbrev BUFFER_SIZE : ℕ := 256

/-- A buffer after bytes were read or received into it. -/
def fill (data buffer : List Char) : List Char := data ++ buffer.drop data.length

/-- `bzero(buffer, BUFFER_SIZE)` -/
def zeros : List Char := List.replicate BUFFER_SIZE '\x00'

/-! ## The two programs -/

/-- The loop of the client where `file` is what was not read yet: the datagrams it sends. `beyond k`
is the memory behind the buffer in round `k`, where `strlen` goes on if the buffer has no `NUL`. -/
def sendLoop (beyond : ℕ → List Char) (buffer file : List Char) : List (List Char) :=
  if file = [] then []
  else
    let buffer := fill (file.take BUFFER_SIZE) buffer
    cstr (buffer ++ beyond 0) ::
      sendLoop (fun k => beyond (k + 1)) buffer (file.drop BUFFER_SIZE)
termination_by file.length
decreasing_by
  have := List.length_pos_of_ne_nil ‹file ≠ []›
  simp only [List.length_drop, BUFFER_SIZE]
  omega

/-- The loop of the server, and the string it prints behind it; without a datagram it waits. -/
def receiveLoop : List (List Char) → List Char → Option Str
  | [], _ => none
  | datagram :: datagrams, buffer =>
    -- `recvfrom` of `BUFFER_SIZE - 1` bytes
    let received := datagram.take (BUFFER_SIZE - 1)
    let buffer := fill received buffer
    if received.length < BUFFER_SIZE then some (cstr buffer) else receiveLoop datagrams buffer

/-- What the server prints for a file. -/
def transfer (beyond : ℕ → List Char) (file : List Char) : Option Str :=
  receiveLoop (sendLoop beyond zeros file) zeros

/-! ## Buffers -/

theorem mem_fill_zeros {data : List Char} : ∀ c ∈ zeros.drop data.length, c = '\x00' := fun _ hc =>
  List.eq_of_mem_replicate (List.mem_of_mem_drop hc)

/-- A string in a cleared buffer. -/
theorem cstr_fill_zeros {data : List Char} (h : '\x00' ∉ data) : cstr (fill data zeros) = data := by
  rw [fill, cstr_append mem_fill_zeros, cstr_of_notMem h]

/-- Behind a string that does not fill the buffer there is a `NUL`. -/
theorem cstr_fill_append {data : List Char} (hlt : data.length < BUFFER_SIZE) (h : '\x00' ∉ data)
    (t : List Char) : cstr (fill data zeros ++ t) = data := by
  have hnul : cstr (zeros.drop data.length ++ t) = [] := by
    obtain ⟨k, hk⟩ : ∃ k, BUFFER_SIZE - data.length = k + 1 := ⟨_, (Nat.succ_pred (by omega)).symm⟩
    rw [zeros, List.drop_replicate, hk]
    rfl
  rw [fill, List.append_assoc, cstr_append_of_notMem h, hnul, List.append_nil]

/-! ## What is printed -/

section
variable {beyond : ℕ → List Char} {file : List Char}

/-- Whatever the datagram, the test for the end of the transfer holds. -/
theorem receiveLoop_cons (datagram : List Char) (datagrams : List (List Char)) (buffer : List Char) :
    receiveLoop (datagram :: datagrams) buffer =
      some (cstr (fill (datagram.take (BUFFER_SIZE - 1)) buffer)) :=
  if_pos (by rw [List.length_take, BUFFER_SIZE]; omega)

theorem sendLoop_of_ne_nil (h : file ≠ []) (buffer : List Char) : sendLoop beyond buffer file =
    cstr (fill (file.take BUFFER_SIZE) buffer ++ beyond 0) ::
      sendLoop (fun k => beyond (k + 1)) (fill (file.take BUFFER_SIZE) buffer)
        (file.drop BUFFER_SIZE) := by
  rw [sendLoop, if_neg h]

/-- The first datagram starts with the first bytes of the file. -/
theorem take_cstr_fill (h : '\x00' ∉ file) (t : List Char) :
    (cstr (fill (file.take BUFFER_SIZE) zeros ++ t)).take (BUFFER_SIZE - 1) =
      file.take (BUFFER_SIZE - 1) := by
  have hchunk : '\x00' ∉ file.take BUFFER_SIZE := fun hc => h (List.mem_of_mem_take hc)
  rcases Nat.lt_or_ge file.length BUFFER_SIZE with hlt | hge
  · rw [cstr_fill_append (by rwa [List.take_of_length_le hlt.le]) hchunk, List.take_take]
    rfl
  · have hlen : BUFFER_SIZE - 1 ≤ (file.take BUFFER_SIZE).length := by
      rw [List.length_take_of_le hge]
      omega
    rw [fill, List.append_assoc, cstr_append_of_notMem hchunk, List.take_append_of_le_length hlen,
      List.take_take]
    rfl

theorem transfer_eq (hne : file ≠ []) (h : '\x00' ∉ file) :
    transfer beyond file = some (file.take (BUFFER_SIZE - 1)) := by
  rw [transfer, sendLoop_of_ne_nil hne, receiveLoop_cons, take_cstr_fill h, cstr_fill_zeros]
  exact fun hc => h (List.mem_of_mem_take hc)

/-- The server prints the file exactly if it fits into what one `recvfrom` takes. -/
theorem transfer_faithful_iff (hne : file ≠ []) (h : '\x00' ∉ file) :
    transfer beyond file = some file ↔ file.length ≤ BUFFER_SIZE - 1 := by
  rw [transfer_eq hne h, Option.some.injEq, List.take_eq_self_iff]

/-- A file with one byte less than the buffer, whatever is behind it. -/
theorem transfer_faithful_most : transfer (fun _ => ['b', 'c']) (List.replicate 255 'a') =
    some (List.replicate 255 'a') := by
  have hne : List.replicate 255 'a' ≠ [] := List.cons_ne_nil _ _
  have hnul : '\x00' ∉ List.replicate 255 'a' := fun hc =>
    absurd (List.eq_of_mem_replicate hc) (by simp)
  exact (transfer_faithful_iff hne hnul).2 (le_of_eq List.length_replicate)

/-- A file that fills the buffer loses its last byte. -/
theorem transfer_cut : ¬ ∀ beyond file, file ≠ [] → '\x00' ∉ file →
    transfer beyond file = some file := by
  intro h
  have hne : List.replicate 256 'a' ≠ [] := List.cons_ne_nil _ _
  have hnul : '\x00' ∉ List.replicate 256 'a' := fun hc => absurd (List.eq_of_mem_replicate hc) (by simp)
  have hcut := h (fun _ => []) _ hne hnul
  rw [transfer_eq hne hnul, Option.some.injEq, List.take_eq_self_iff, List.length_replicate] at hcut
  exact absurd hcut (by simp)

end

/-! ## What is sent -/

/-- A buffer without a `NUL`. -/
structure Full (buffer : List Char) : Prop where
  length : buffer.length = BUFFER_SIZE
  notMem : '\x00' ∉ buffer

section
variable {buffer file : List Char}

theorem Full.fill (hb : Full buffer) {data : List Char} (hlen : data.length ≤ BUFFER_SIZE)
    (h : '\x00' ∉ data) : Full (fill data buffer) := by
  constructor
  · rw [Datagram.fill, List.length_append, List.length_drop, hb.length]
    omega
  · rw [Datagram.fill, List.mem_append, not_or]
    exact ⟨h, fun hc => hb.notMem (List.mem_of_mem_drop hc)⟩

theorem full_fill_self {data : List Char} (hlen : data.length = BUFFER_SIZE) (h : '\x00' ∉ data)
    (hb : buffer.length = BUFFER_SIZE) : fill data buffer = data ∧ Full data := by
  refine ⟨?_, hlen, h⟩
  rw [fill, hlen, ← hb, List.drop_length, List.append_nil]

/-- After a full buffer, no datagram is shorter than it. -/
theorem Full.le_length_sent (hb : Full buffer) (h : '\x00' ∉ file) (beyond : ℕ → List Char) :
    file.length ≤ (sendLoop beyond buffer file).flatten.length := by
  induction beyond, buffer, file using sendLoop.induct with
  | case1 => exact Nat.zero_le _
  | case2 beyond buffer file hne _ ih =>
    have hchunk := hb.fill (List.length_take_le BUFFER_SIZE file) fun hc => h (List.mem_of_mem_take hc)
    have hrest : (file.drop BUFFER_SIZE).length ≤
        (sendLoop (fun k => beyond (k + 1)) (Datagram.fill (file.take BUFFER_SIZE) buffer)
          (file.drop BUFFER_SIZE)).flatten.length :=
      ih hchunk fun hc => h (List.mem_of_mem_drop hc)
    rw [sendLoop_of_ne_nil hne, cstr_append_of_notMem hchunk.notMem, List.flatten_cons,
      List.length_append, List.length_append, hchunk.length]
    rw [List.length_drop] at hrest
    omega

/-- After a full buffer, the datagrams are the rest of the file only if that is made of full
buffers, and a `NUL` lies behind the buffer each time. -/
theorem Full.sent_eq_iff {beyond : ℕ → List Char} (hb : Full buffer) (h : '\x00' ∉ file) :
    (sendLoop beyond buffer file).flatten = file ↔
      BUFFER_SIZE ∣ file.length ∧ ∀ k < file.length / BUFFER_SIZE, cstr (beyond k) = [] := by
  induction beyond, buffer, file using sendLoop.induct with
  | case1 => simp [sendLoop]
  | case2 beyond buffer file hne chunk ih =>
    have htake : '\x00' ∉ file.take BUFFER_SIZE := fun hc => h (List.mem_of_mem_take hc)
    have hdrop : '\x00' ∉ file.drop BUFFER_SIZE := fun hc => h (List.mem_of_mem_drop hc)
    have hchunk := hb.fill (List.length_take_le BUFFER_SIZE file) htake
    rw [sendLoop_of_ne_nil hne, cstr_append_of_notMem hchunk.notMem, List.flatten_cons]
    have hpos := List.length_pos_of_ne_nil hne
    rcases Nat.lt_or_ge file.length BUFFER_SIZE with hlt | hge
    · -- the datagram is longer than what is left
      constructor
      · intro heq
        have hlen := congrArg List.length heq
        rw [List.length_append, List.length_append, hchunk.length] at hlen
        omega
      · rintro ⟨hdvd, -⟩
        exact absurd (Nat.le_of_dvd hpos hdvd) (by omega)
    · obtain ⟨hfill, hfull⟩ := full_fill_self (List.length_take_of_le hge) htake hb.length
      have hlen := hfull.le_length_sent hdrop fun k => beyond (k + 1)
      have hih := ih hchunk hdrop
      rw [show chunk = file.take BUFFER_SIZE from hfill] at hih
      rw [hfill]
      generalize sendLoop (fun k => beyond (k + 1)) (file.take BUFFER_SIZE) (file.drop BUFFER_SIZE) = ds
        at hlen hih ⊢
      have hsplit : file.take BUFFER_SIZE ++ cstr (beyond 0) ++ ds.flatten = file ↔
          cstr (beyond 0) = [] ∧ ds.flatten = file.drop BUFFER_SIZE := by
        conv_lhs => rhs; rw [← List.take_append_drop BUFFER_SIZE file]
        rw [List.append_assoc, List.append_cancel_left_eq]
        constructor
        · intro heq
          have hnil : cstr (beyond 0) = [] := by
            have := congrArg List.length heq
            rw [List.length_append] at this
            exact List.eq_nil_of_length_eq_zero (by omega)
          rw [hnil, List.nil_append] at heq
          exact ⟨hnil, heq⟩
        · rintro ⟨hnil, heq⟩
          rw [hnil, heq, List.nil_append]
      have hdvd : BUFFER_SIZE ∣ file.length - BUFFER_SIZE ↔ BUFFER_SIZE ∣ file.length := by
        conv_rhs => rw [← Nat.sub_add_cancel hge]
        exact (Nat.dvd_add_self_right).symm
      rw [hsplit, hih, List.length_drop, Nat.div_eq_sub_div (by simp) hge, hdvd]
      constructor
      · rintro ⟨hnil, hd, hall⟩
        refine ⟨hd, ?_⟩
        intro k hk
        cases k with
        | zero => exact hnil
        | succ k => exact hall k (by omega)
      · rintro ⟨hd, hall⟩
        exact ⟨hall 0 (Nat.succ_pos _), hd, fun k hk => hall (k + 1) (by omega)⟩

/-- The datagrams are the file exactly if it is shorter than the buffer, or is made of full buffers
with a `NUL` behind the buffer each time: a short last chunk is sent with the end of the one before
it. -/
theorem sent_eq_iff {beyond : ℕ → List Char} (h : '\x00' ∉ file) :
    (sendLoop beyond zeros file).flatten = file ↔ file.length < BUFFER_SIZE ∨
      BUFFER_SIZE ∣ file.length ∧ ∀ k < file.length / BUFFER_SIZE, cstr (beyond k) = [] := by
  rcases Nat.lt_or_ge file.length BUFFER_SIZE with hlt | hge
  · refine iff_of_true ?_ (Or.inl hlt)
    rcases eq_or_ne file [] with rfl | hne
    · rw [sendLoop, if_pos rfl]
      rfl
    · rw [sendLoop_of_ne_nil hne, List.take_of_length_le hlt.le, List.drop_eq_nil_of_le hlt.le,
        sendLoop, if_pos rfl, cstr_fill_append hlt h, List.flatten_singleton]
  · have htake : '\x00' ∉ file.take BUFFER_SIZE := fun hc => h (List.mem_of_mem_take hc)
    have hlen : zeros.length = BUFFER_SIZE := List.length_replicate
    obtain ⟨hzeros, hfull⟩ := full_fill_self (List.length_take_of_le hge) htake hlen
    have hne : file ≠ [] := by
      rintro rfl
      exact absurd hge (by simp)
    -- nothing of the cleared buffer stays
    have hsend : sendLoop beyond zeros file = sendLoop beyond (file.take BUFFER_SIZE) file := by
      rw [sendLoop_of_ne_nil hne, sendLoop_of_ne_nil hne, hzeros,
        (full_fill_self hfull.length htake hfull.length).1]
    rw [hsend, hfull.sent_eq_iff h]
    exact (or_iff_right (Nat.not_lt.2 hge)).symm

end

end Datagram
