import NetCache.Server.Source

/-!
# What the server takes for a message

Both receive paths may act on bytes that are not part of the request. The two main results say for
which streams, and for which datagrams, the message is nevertheless determined.

## Streams

The TCP handler takes the whole stream buffer, whatever the number of bytes up to the delimiter.
What is in the buffer when it is called depends on how the stream was cut into reads: the part up to
the first `NUL`, and any part of what follows. All of it is stripped and taken for the message. So
the cuts make no difference exactly when stripping removes whatever may follow the `NUL`, along with
the `NUL`, for every extent of the buffer (`readMessage_eq_rstrip_iff`). Up to `2 ^ 31` bytes this
means that the part before the `NUL` is not blank and that only whitespace follows, where `NUL`
counts as whitespace; beyond, the index of `strip` decides where the loop starts, and whether it
throws (`SurvivesCuts`).

## Datagrams

The UDP handler searches the whole receive buffer, whatever the length of the datagram. The end of
an earlier datagram can complete a later one that has no `NUL`. The message is independent of the
datagrams before, and of the initial content of the buffer, exactly when the datagram contains a
`NUL` that fits the buffer, or fills the buffer (`receivedMessage_eq_iff`).

Each result is followed by an instance of what goes wrong otherwise.
-/

namespace NetCache

open Text

namespace Server

variable {p rest q b : Bytes} {pieces : List Bytes} {j k : ℕ}

/-! ## Streams

`p` is the part of the stream before its first `NUL`, and `rest` what follows. The extents of the
buffer that a cut can produce are the prefixes with that `NUL` in them. -/

theorem exists_take_of_isPrefix (hp : 0 ∉ p) (hq : q <+: p ++ 0 :: rest) (hmem : 0 ∈ q) :
    ∃ j ≤ rest.length, q = p ++ 0 :: rest.take j := by
  rcases List.prefix_or_prefix_of_prefix hq (List.prefix_append p _) with hqp | ⟨t, rfl⟩
  · exact absurd (hqp.subset hmem) hp
  · have ht := (List.prefix_append_right_inj p).mp hq
    cases t with
    | nil => exact absurd (by simpa using hmem) hp
    | cons c t =>
      obtain ⟨rfl, htail⟩ := List.cons_prefix_cons.mp ht
      exact ⟨t.length, htail.length_le, by rw [← List.prefix_iff_eq_take.mp htail]⟩

/-- The handler of `async_read_until` finds the part up to the first `NUL`, and perhaps more. -/
theorem exists_readUntil_eq (hp : 0 ∉ p) (hb : 0 ∉ b)
    (hpieces : b ++ pieces.flatten = p ++ 0 :: rest) :
    ∃ j ≤ rest.length, readUntil b pieces = (p ++ 0 :: rest.take j, false) := by
  induction pieces generalizing b with
  | nil =>
    rw [List.flatten_nil, List.append_nil] at hpieces
    exact absurd (by simp [hpieces]) hb
  | cons piece pieces ih =>
    rw [List.flatten_cons, ← List.append_assoc] at hpieces
    rw [readUntil]
    by_cases hmem : 0 ∈ b ++ piece
    · obtain ⟨j, hj, heq⟩ := exists_take_of_isPrefix hp ⟨_, hpieces⟩ hmem
      exact ⟨j, hj, by rw [if_pos hmem, heq]⟩
    · rw [if_neg hmem]
      exact ih hmem hpieces

theorem readUntil_of_notMem (h : 0 ∉ b ++ pieces.flatten) :
    readUntil b pieces = (b ++ pieces.flatten, true) := by
  induction pieces generalizing b with
  | nil => rw [readUntil, List.flatten_nil, List.append_nil]
  | cons piece pieces ih =>
    rw [List.flatten_cons, ← List.append_assoc] at h ⊢
    have hmem : 0 ∉ b ++ piece := fun hmem ↦ h (List.mem_append_left _ hmem)
    rw [readUntil, if_neg hmem, ih h]

theorem readUntil_two (j : ℕ) : readUntil [] [p ++ 0 :: rest.take j, rest.drop j]
    = (p ++ 0 :: rest.take j, false) := by
  rw [readUntil, List.nil_append, if_pos (by simp)]

theorem exists_solid_iff : (∃ c ∈ p, isWhiteSpace c = false) ↔ ¬ p.all isWhiteSpace = true := by
  simp

theorem rstrip_append_nul_iff {s u : Bytes} (hs : p.length < s.length) :
    (if (p ++ 0 :: u).all isWhiteSpace = true then s else rstrip (p ++ 0 :: u)) = rstrip p ↔
      (∃ c ∈ p, isWhiteSpace c = false) ∧ u.all isWhiteSpace = true := by
  have hshort : (rstrip p).length ≤ p.length := (rstrip_isPrefix p).length_le
  have hz : isWhiteSpace 0 = true := rfl
  rw [exists_solid_iff]
  by_cases hall : u.all isWhiteSpace = true
  · have hzu : (0 :: u).all isWhiteSpace = true := by simp [hz, hall]
    rw [rstrip_append hzu, List.all_append, hzu, Bool.and_true]
    by_cases hp : p.all isWhiteSpace = true
    · rw [if_pos hp]
      refine iff_of_false ?_ (fun h ↦ h.1 hp)
      intro heq
      have := congrArg List.length heq
      omega
    · rw [if_neg hp]
      exact iff_of_true rfl ⟨hp, hall⟩
  · -- what is behind the `NUL` stays, so the result is too long
    have hzu : ¬ (0 :: u).all isWhiteSpace = true := by simpa [hz] using hall
    obtain ⟨hstrip, hne⟩ := rstrip_append_of_not_all (p := p) hzu
    have hnot : ¬ (p ++ 0 :: u).all isWhiteSpace = true := by
      rw [List.all_append, Bool.and_eq_true]
      intro h
      exact hzu h.2
    rw [if_neg hnot, hstrip]
    refine iff_of_false ?_ (fun h ↦ hall h.2)
    intro heq
    have := congrArg List.length heq
    have := List.length_pos_iff.mpr hne
    rw [List.length_append] at *
    omega

theorem rstrip_take_iff {s : Bytes} (hs : p.length < s.length) :
    (if (p.take k).all isWhiteSpace = true then s else rstrip (p.take k)) = rstrip p ↔
      (∃ c ∈ p, isWhiteSpace c = false) ∧ (rstrip p).length ≤ k := by
  have hshort : (rstrip p).length ≤ p.length := (rstrip_isPrefix p).length_le
  obtain ⟨w, hw, hws⟩ := exists_rstrip_append p
  rw [exists_solid_iff]
  by_cases hqk : (rstrip p).length ≤ k
  · have hpk : p.take k = rstrip p ++ w.take (k - (rstrip p).length) := by
      conv_lhs => rw [hw, List.take_append, List.take_of_length_le hqk]
    have hwk : (w.take (k - (rstrip p).length)).all isWhiteSpace = true := by
      simp only [List.all_eq_true] at hws ⊢
      intro c hc
      exact hws c (List.mem_of_mem_take hc)
    have hpall : (rstrip p).all isWhiteSpace = p.all isWhiteSpace := by
      conv_rhs => rw [hw, List.all_append, hws, Bool.and_true]
    have hidem : rstrip (rstrip p) = rstrip p := List.rdropWhile_idempotent _ _
    rw [hpk, List.all_append, hwk, Bool.and_true, hpall, rstrip_append hwk, hidem]
    by_cases hp : p.all isWhiteSpace = true
    · rw [if_pos hp]
      refine iff_of_false ?_ (fun h ↦ h.1 hp)
      intro heq
      have := congrArg List.length heq
      omega
    · rw [if_neg hp]
      exact iff_of_true rfl ⟨hp, hqk⟩
  · -- the loop ends before the end of the stripped part, so the result is too short
    refine iff_of_false ?_ (fun h ↦ hqk h.2)
    intro heq
    split at heq
    · have := congrArg List.length heq
      omega
    · have hle := (rstrip_isPrefix (p.take k)).length_le
      rw [heq, List.length_take] at hle
      omega

/-- Stripping what the handler finds gives the stripped part before the `NUL` exactly when that
part is not blank and not too long, the loop gets as far as it, and all else the loop looks at is
whitespace. -/
theorem strip_eq_rstrip_iff (hj : j ≤ rest.length) :
    strip (p ++ 0 :: rest.take j) = some (rstrip p) ↔
      ((∃ c ∈ p, isWhiteSpace c = false) ∧ (rstrip p).length < 2 ^ 31) ∧
        (rstrip p).length ≤ stripBound (p.length + 1 + j) ∧
        (rest.take (stripBound (p.length + 1 + j) - (p.length + 1))).all isWhiteSpace = true := by
  set k := stripBound (p.length + 1 + j) with hk
  have hlen : (p ++ 0 :: rest.take j).length = p.length + 1 + j := by
    rw [List.length_append, List.length_cons, List.length_take, Nat.min_eq_left hj]
    omega
  have hkle : k ≤ p.length + 1 + j := stripBound_le _
  have hshort : (rstrip p).length ≤ p.length := (rstrip_isPrefix p).length_le
  rw [strip_eq_some_iff (by omega), hlen, ← hk, and_right_comm]
  refine and_congr_left fun _ ↦ ?_
  rcases Nat.lt_or_ge p.length k with hpk | hkp
  · have htake : (p ++ 0 :: rest.take j).take k = p ++ 0 :: rest.take (k - (p.length + 1)) := by
      obtain ⟨m, hm⟩ : ∃ m, k = p.length + (m + 1) := ⟨k - (p.length + 1), by omega⟩
      have hsub : p.length + (m + 1) - (p.length + 1) = m := by omega
      rw [hm, List.take_length_add_append, List.take_succ_cons, List.take_take,
        Nat.min_eq_left (by omega), hsub]
    rw [htake, rstrip_append_nul_iff (by omega), and_iff_right (hshort.trans hpk.le)]
  · have hnone : k - (p.length + 1) = 0 := by omega
    rw [List.take_append_of_le_length hkp, rstrip_take_iff (by omega), hnone, List.take_zero,
      List.all_nil, and_iff_left rfl]

/-- What a stream needs so that every cut gives the same message: the part before the first `NUL`
is not blank, `strip` does not throw for its last index, and for each extent of the stream buffer
the loop of `strip` gets as far as that part and looks at nothing but whitespace behind it. -/
def SurvivesCuts (p rest : Bytes) : Prop :=
  ((∃ c ∈ p, isWhiteSpace c = false) ∧ (rstrip p).length < 2 ^ 31) ∧ ∀ j ≤ rest.length,
    (rstrip p).length ≤ stripBound (p.length + 1 + j) ∧
      (rest.take (stripBound (p.length + 1 + j) - (p.length + 1))).all isWhiteSpace = true

/-- Up to `2 ^ 31` bytes the loop of `strip` looks at everything. -/
theorem survivesCuts_iff (hlen : p.length + 1 + rest.length ≤ 2 ^ 31) :
    SurvivesCuts p rest ↔
      (∃ c ∈ p, isWhiteSpace c = false) ∧ rest.all isWhiteSpace = true := by
  have hshort : (rstrip p).length ≤ p.length := (rstrip_isPrefix p).length_le
  constructor
  · rintro ⟨⟨hp, -⟩, hj⟩
    obtain ⟨-, hws⟩ := hj rest.length le_rfl
    rw [stripBound_of_le hlen, Nat.add_sub_cancel_left, List.take_length] at hws
    exact ⟨hp, hws⟩
  · rintro ⟨hp, hws⟩
    refine ⟨⟨hp, by omega⟩, fun j hj ↦ ⟨?_, ?_⟩⟩
    · rw [stripBound_of_le (by omega)]
      omega
    · simp only [List.all_eq_true] at hws ⊢
      intro c hc
      exact hws c (List.mem_of_mem_take hc)

/-- **The message of a stream.** Every way to cut a stream into reads gives the stripped part before
its first `NUL` exactly when the stream survives cuts; for streams of up to `2 ^ 31` bytes, exactly
when that part is not blank and only whitespace follows its `NUL`. -/
theorem readMessage_eq_rstrip_iff (p rest : Bytes) (hp : 0 ∉ p) :
    ((∀ pieces b error bytesWritten, pieces.flatten = p ++ 0 :: rest →
        readUntil [] pieces = (b, error) →
          readMessage b error bytesWritten = some (rstrip p)) ↔ SurvivesCuts p rest) ∧
    (p.length + 1 + rest.length ≤ 2 ^ 31 → (SurvivesCuts p rest ↔
      (∃ c ∈ p, isWhiteSpace c = false) ∧ rest.all isWhiteSpace = true)) := by
  refine ⟨⟨?_, ?_⟩, survivesCuts_iff⟩
  · intro h
    have hcut : ∀ j ≤ rest.length, strip (p ++ 0 :: rest.take j) = some (rstrip p) := fun j _ ↦
      h [p ++ 0 :: rest.take j, rest.drop j] _ _ 0 (by simp) (readUntil_two j)
    exact ⟨((strip_eq_rstrip_iff (Nat.zero_le _)).mp (hcut 0 (Nat.zero_le _))).1, fun j hj ↦
      ((strip_eq_rstrip_iff hj).mp (hcut j hj)).2⟩
  · intro h pieces b error bytesWritten hpieces hread
    obtain ⟨j, hj, hread'⟩ := exists_readUntil_eq hp List.not_mem_nil hpieces
    obtain ⟨rfl, rfl⟩ := Prod.mk.inj (hread.symm.trans hread')
    exact (strip_eq_rstrip_iff hj).mpr ⟨h.1, h.2 j hj⟩

theorem readMessage_eq_rstrip_iff_example :
    ((∀ pieces b error bytesWritten, pieces.flatten = ascii "GET /a" ++ 0 :: [0] →
        readUntil [] pieces = (b, error) →
        readMessage b error bytesWritten = some (rstrip (ascii "GET /a"))) ↔
      SurvivesCuts (ascii "GET /a") [0]) ∧
    ((ascii "GET /a").length + 1 + [(0 : UInt8)].length ≤ 2 ^ 31 →
      (SurvivesCuts (ascii "GET /a") [0] ↔
        (∃ c ∈ ascii "GET /a", isWhiteSpace c = false) ∧ [0].all isWhiteSpace = true)) :=
  readMessage_eq_rstrip_iff _ _ (by decide)

/-- Two cuts of one stream, of which the first stores another value than the second. -/
theorem readMessage_depends_on_cut :
    [ascii "PUT /k/v" ++ 0 :: ascii "x"].flatten
        = [ascii "PUT /k/v" ++ [0], ascii "x"].flatten ∧
      readUntil [] [ascii "PUT /k/v" ++ 0 :: ascii "x"]
        = (ascii "PUT /k/v" ++ 0 :: ascii "x", false) ∧
      readUntil [] [ascii "PUT /k/v" ++ [0], ascii "x"] = (ascii "PUT /k/v" ++ [0], false) ∧
      readMessage (ascii "PUT /k/v" ++ 0 :: ascii "x") false 9
        = some (ascii "PUT /k/v" ++ 0 :: ascii "x") ∧
      readMessage (ascii "PUT /k/v" ++ [0]) false 9 = some (ascii "PUT /k/v") := by
  decide

/-! ## Datagrams -/

variable {recbuf recbuf' : BufArr} {d : Bytes}

theorem receivedMessage_of_bytes {t : Bytes} (hp : 0 ∉ p) (h : recbuf.bytes = p ++ 0 :: t) :
    receivedMessage recbuf = some (strip p) := by
  rw [receivedMessage, findInBuf, h, findIdx?_append_cons hp, Option.map_some, List.take_left]

theorem receivedMessage_of_notMem (h : 0 ∉ recbuf.bytes) : receivedMessage recbuf = none := by
  rw [receivedMessage, findInBuf, findIdx?_eq_none h, Option.map_none]

theorem receive_bytes (recbuf : BufArr) (d : Bytes) :
    (receive recbuf d).bytes = d.take bufsize ++ recbuf.bytes.drop d.length := rfl

theorem exists_receive_eq (recbuf : BufArr) (h : p.length < bufsize) (rest : Bytes) :
    ∃ t, (receive recbuf (p ++ 0 :: rest)).bytes = p ++ 0 :: t := by
  obtain ⟨m, hm⟩ : ∃ m, bufsize = p.length + (m + 1) := ⟨bufsize - (p.length + 1), by omega⟩
  refine ⟨rest.take m ++ recbuf.bytes.drop (p ++ 0 :: rest).length, ?_⟩
  rw [receive_bytes, hm, List.take_length_add_append, List.take_succ_cons, List.append_assoc,
    List.cons_append]

/-- A `NUL` of the datagram that fits the buffer is found, and with it a part of the datagram. -/
theorem receivedMessage_receive (hp : 0 ∉ p) (h : p.length < bufsize) (rest : Bytes) :
    receivedMessage (receive recbuf (p ++ 0 :: rest)) = some (strip p) := by
  obtain ⟨t, ht⟩ := exists_receive_eq recbuf h rest
  exact receivedMessage_of_bytes hp ht

theorem receive_of_le (h : bufsize ≤ d.length) : receive recbuf d = receive recbuf' d := by
  simp only [receive, BufArr.mk.injEq]
  rw [List.drop_of_length_le (recbuf.length_eq.trans_le h),
    List.drop_of_length_le (recbuf'.length_eq.trans_le h)]

/-- The receive buffer with the same byte everywhere. -/
def filled (c : UInt8) : BufArr := ⟨List.replicate bufsize c, List.length_replicate⟩

/-- **The message of a datagram** is independent of the datagrams before it and of the initial
content of the buffer exactly when the datagram contains a `NUL` that fits the buffer, or fills
the buffer. -/
theorem receivedMessage_eq_iff (d : Bytes) :
    (∀ recbuf recbuf' : BufArr, ∀ history history' : List Bytes,
        receivedMessage (receive (history.foldl receive recbuf) d)
          = receivedMessage (receive (history'.foldl receive recbuf') d)) ↔
      0 ∈ d.take bufsize ∨ bufsize ≤ d.length := by
  constructor
  · intro h
    by_contra hd
    rw [not_or, Nat.not_le] at hd
    obtain ⟨hmem, hlt⟩ := hd
    rw [List.take_of_length_le hlt.le] at hmem
    -- a buffer of zeros completes the datagram, and one without zeros does not
    have hzeros : (receive (filled 0) d).bytes
        = d ++ 0 :: List.replicate (bufsize - d.length - 1) 0 := by
      rw [receive_bytes, filled, List.take_of_length_le hlt.le, List.drop_replicate,
        ← List.replicate_succ, Nat.sub_add_cancel (by omega)]
    have hones : 0 ∉ (receive (filled 1) d).bytes := by
      rw [receive_bytes, filled, List.take_of_length_le hlt.le, List.drop_replicate,
        List.mem_append, not_or]
      exact ⟨hmem, fun h ↦ absurd (List.eq_of_mem_replicate h) (by decide)⟩
    have heq := h (filled 0) (filled 1) [] []
    rw [List.foldl_nil, List.foldl_nil, receivedMessage_of_bytes hmem hzeros,
      receivedMessage_of_notMem hones] at heq
    exact absurd heq (by simp)
  · rintro (hmem | hle) recbuf recbuf' history history'
    · obtain ⟨p, q, hpq, hp⟩ := List.eq_append_cons_of_mem (List.mem_of_mem_take hmem)
      have hlt : p.length < bufsize := by
        by_contra hge
        rw [hpq, List.take_append_of_le_length (Nat.not_lt.mp hge)] at hmem
        exact hp (List.mem_of_mem_take hmem)
      rw [hpq, receivedMessage_receive hp hlt, receivedMessage_receive hp hlt]
    · rw [receive_of_le hle]

/-- The end of a datagram completes a later one that has no `NUL`. -/
theorem receivedMessage_depends_on_history :
    receivedMessage (receive ([ascii "GET /abc" ++ [0]].foldl receive (filled 0)) (ascii "GET /x"))
        = some (some (ascii "GET /xbc")) ∧
      receivedMessage (receive (filled 0) (ascii "GET /x")) = some (some (ascii "GET /x")) :=
  ⟨rfl, rfl⟩

end Server

end NetCache
