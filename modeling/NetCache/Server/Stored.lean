import NetCache.Server.Messages

/-!
# What the server stores

Every key that is stored is on one line and has no slash in it, as it comes out of a message. For
the values there are two facts that the handlers rely on without checking them.

## Texts with an end

A `GET` reads the stored value as a C string, so a `NUL` has to be among its bytes. The value of a
`PUT` is the text of its message as far as the first line goes, with the `NUL` behind the message if
nothing ends the line before, and its size is narrowed to 32 bits. `HasEnd` is the condition on the
message that a `NUL` is among the bytes that are stored. For messages without a `NUL` of their own
it says that there is a second slash, no line break, and a text whose length, with its `NUL`, is
below `2 ^ 32` (`hasEnd_iff`). `terminated_iff_storesEnd` is about whole runs: in every state all
stored values have one, exactly when each `PUT` that the limit admits has such a text.

## Empty texts

A `POST memsize` takes a cache that uses no space for an empty one, so no stored value may be empty.
If every `PUT` has a text, a limit is accepted exactly when there is no entry. A single empty value
is enough to break this, and the new cache then starts without it.
-/

namespace NetCache

open Text

namespace Server

variable {c c' : Contents} {message : Bytes} {outcome : Except Thrown (Option Bytes)}

theorem putValue_text (message : Bytes) :
    (putValue (text message)).bytes = (text message).take ((text message).length % 2 ^ 32) := by
  rw [putValue, Value.bytes_ofBuffer, UInt32.toNat_ofNat', List.take_append_of_le_length]
  exact Nat.mod_le _ _

/-- The size of a message's text, as it is stored. -/
def textSize (message : Bytes) : UInt32 := UInt32.ofNat (text message).length

theorem size_putValue_text (message : Bytes) :
    (putValue (text message)).size = textSize message := by
  apply Value.size_ofBuffer
  rw [UInt32.toNat_ofNat', List.length_append]
  exact (Nat.mod_le _ _).trans (Nat.le_add_right _ _)

/-- The message is a `PUT`. -/
def IsPut (message : Bytes) : Prop :=
  ∃ info1 info2, parts message = some ⟨ascii "PUT", info1, info2⟩

/-- **What holds of all values** after a message: what held of them before, when it holds of the
text of a `PUT` that the limit admits. -/
theorem Contents.Effect.forall_entries {p : Value → Prop} (h : c.Effect message (some c') outcome)
    (hall : ∀ e ∈ c.entries, p e.2)
    (hput : IsPut message → (textSize message).toUInt64 ≤ c.limit → p (putValue (text message))) :
    ∀ e ∈ c'.entries, p e.2 := by
  intro e he
  cases h with
  | keep => exact hall e he
  | get reply hparts =>
    rcases Lru.mem_of_mem_step he with he | hcall
    · exact hall e he
    · cases hcall
  | put hparts =>
    obtain ⟨-, -, rfl⟩ := parts_eq_some hparts
    rcases Lru.mem_put he with ⟨he, -⟩ | ⟨hadmits, rfl⟩
    · exact hall e he
    · rw [Lru.word_admits_iff, size_putValue_text] at hadmits
      exact hput ⟨_, _, hparts⟩ hadmits
  | delete hparts => exact hall e (Lru.mem_remove.mp he).1
  | resize n hused => exact absurd he List.not_mem_nil

theorem exists_entry_of_put {port : Option CacheObj} {handled : Handled} (h : Keeps port (some c))
    (hact : actOnMessage port message = some handled) (hput : IsPut message)
    (hadmits : (textSize message).toUInt64 ≤ c.limit) :
    ∃ c' key, Keeps handled.port (some c') ∧ (key, putValue (text message)) ∈ c'.entries := by
  obtain ⟨info1, info2, hparts⟩ := hput
  obtain ⟨-, -, rfl⟩ := parts_eq_some hparts
  have hrel := actOnMessage_refines h message
  have hended : c.act message = some (some (c.put info1 (text message)), .ok none) := by
    rw [Contents.act, hparts]
    rfl
  rw [hact, hended] at hrel
  cases hrel with
  | some hrefines =>
    refine ⟨_, CStr.ofBytes info1, hrefines.port, ?_⟩
    have hword : (Lru.word (κ := CStr) Value.size c.limit).admits (putValue (text message))
        = true := by
      rwa [Lru.word_admits_iff, size_putValue_text]
    rw [Contents.put, Lru.put, if_pos hword]
    exact List.mem_cons_self

theorem Keeps.maxmem {cache : CacheObj} (h : Keeps (some cache) (some c)) :
    cache.maxmem = c.limit := by
  obtain ⟨cache', l, hcache, hr, -⟩ := h
  obtain rfl := Option.some.inj hcache
  exact hr.limit

/-! ## Names

The keys that can be stored are fewer than the keys that can be looked up, so a lookup of any
other key misses. -/

/-- What a key must be for an entry to have it. -/
structure IsName (key : CStr) : Prop where
  /-- There is no slash in it. -/
  no_slash : 47 ∉ key.bytes
  /-- It is on one line. -/
  line : SingleLine key.bytes

theorem isName_firstField (message : Bytes) :
    IsName (CStr.ofBytes (firstField (body message))) := by
  have hkey : (CStr.ofBytes (firstField (body message))).bytes <+: firstField (body message) :=
    List.takeWhile_prefix _
  have hfirst : firstField (body message) <+: body message := List.takeWhile_prefix _
  refine ⟨?_, (singleLine_body message).mono (hkey.trans hfirst).subset⟩
  intro hmem
  have hslash := List.mem_takeWhile_imp (hkey.subset hmem)
  simp at hslash

theorem Contents.Effect.isName (heffect : c.Effect message (some c') outcome)
    (h : ∀ e ∈ c.entries, IsName e.1) : ∀ e ∈ c'.entries, IsName e.1 := by
  intro e he
  cases heffect with
  | keep => exact h e he
  | get reply hparts =>
    rcases Lru.mem_of_mem_step he with he | hcall
    · exact h e he
    · cases hcall
  | put hparts =>
    obtain ⟨-, rfl, -⟩ := parts_eq_some hparts
    rcases Lru.mem_put he with ⟨he, -⟩ | ⟨-, rfl⟩
    · exact h e he
    · exact isName_firstField message
  | delete hparts => exact h e (Lru.mem_remove.mp he).1
  | resize n hused => exact absurd he List.not_mem_nil

/-- **What can be stored**: in every state of the server only names have entries. -/
theorem Reachable.isName {s : State} (hs : Reachable s) {cache : CacheObj}
    (hport : s.port = some cache) {key : CStr} (hholds : cache.Holds key) : IsName key := by
  obtain ⟨c, hc, hnames⟩ := hs.invariant (fun c ↦ ∀ e ∈ c.entries, IsName e.1) (by simp)
    fun _ _ _ _ h heffect ↦ heffect.isName h
  rw [hport] at hc
  obtain ⟨v, hmem⟩ := Lru.mem_keys.mp (hc.holds_iff.mp hholds)
  exact hnames _ hmem

/-! ## Texts with an end

One direction is the invariant. For the other, a value without an end is still stored right after
the message that brought it, so the run has a state in which it is. -/

/-- Every stored value contains a `NUL` within its size. -/
def Terminated (cache : CacheObj) : Prop :=
  ∀ key v valSize, cache.reads key = some (some v, valSize) → 0 ∈ v.take valSize.toNat

/-- The text of the message contains a `NUL` within the size that is stored. -/
def HasEnd (message : Bytes) : Prop :=
  0 ∈ (text message).take ((text message).length % 2 ^ 32)

/-- The first line of a message without `NUL`s has the one behind the message if it is the only
line. -/
theorem nul_mem_firstLine_iff (hnul : 0 ∉ message) :
    0 ∈ firstLine message ↔ SingleLine message := by
  constructor
  · intro hmem
    by_contra hline
    have hend : ¬ message.length ≤ endOfLine message := by
      rwa [le_endOfLine_iff (Nat.le_succ _), List.take_length]
    rw [firstLine_eq_take, List.take_append_of_le_length (Nat.le_of_not_le hend)] at hmem
    exact hnul (List.mem_of_mem_take hmem)
  · intro hline
    rw [firstLine_of_singleLine hline]
    exact List.mem_append_right _ (List.mem_singleton_self _)

/-- **Which texts have an end**, in a message without `NUL`s: there is a second slash, no line
break, and what is behind the slash is shorter than `2 ^ 32` with its `NUL`. -/
theorem hasEnd_iff (hnul : 0 ∉ message) : HasEnd message ↔
    ∃ i, find message 47 (keyStart message) = some i ∧ SingleLine message ∧
      message.length - i < 2 ^ 32 := by
  rw [HasEnd, text]
  cases hslash : find message 47 (keyStart message) with
  | none => simp
  | some i =>
    have hlt : i + 1 ≤ message.length := (lt_length_of_find hslash).2
    have hdrop : 0 ∉ message.drop (i + 1) := fun hmem ↦ hnul (List.mem_of_mem_drop hmem)
    by_cases hline : SingleLine message
    · have hlen : (message.drop (i + 1) ++ [0]).length = message.length - i := by
        rw [List.length_append, List.length_drop, List.length_singleton]
        omega
      simp only [firstLine_of_singleLine hline, List.drop_append_of_le_length hlt, hlen, hline,
        Option.some.injEq, exists_eq_left', true_and]
      by_cases hshort : message.length - i < 2 ^ 32
      · rw [Nat.mod_eq_of_lt hshort, ← hlen, List.take_length]
        exact iff_of_true (List.mem_append_right _ (List.mem_singleton_self _)) (hlen ▸ hshort)
      · -- the size that is stored leaves the `NUL` out
        have hmod := Nat.mod_lt (message.length - i) (Nat.two_pow_pos 32)
        rw [List.length_append, List.length_singleton] at hlen
        rw [List.take_append_of_le_length (by omega)]
        exact iff_of_false (fun hmem ↦ hdrop (List.mem_of_mem_take hmem)) hshort
    · simp only [hline, false_and, and_false, exists_false, iff_false]
      intro hmem
      exact hline ((nul_mem_firstLine_iff hnul).mp
        (List.mem_of_mem_drop (List.mem_of_mem_take hmem)))

/-- A `PUT` that the limit admits has a text with an end. -/
def Handling.StoresEnd (h : Handling) : Prop :=
  IsPut h.message → ∀ cache, h.before = some cache →
    (textSize h.message).toUInt64 ≤ cache.maxmem → HasEnd h.message

theorem terminated_iff {cache : CacheObj} (h : Keeps (some cache) (some c)) :
    Terminated cache ↔ ∀ e ∈ c.entries, 0 ∈ e.2.bytes := by
  have hnd := h.nodup_keys
  have hreads := h.reads_eq
  constructor
  · rintro h ⟨key, v⟩ he
    have hread := hreads key
    rw [(Lru.find_eq_some_iff hnd).mpr he] at hread
    have hmem := h key v.bytes v.size hread
    rwa [Value.toNat_size, List.take_length] at hmem
  · intro h key v valSize hread
    rw [hreads, Option.some.injEq, Prod.mk.injEq] at hread
    obtain ⟨hv, hsize⟩ := hread
    obtain ⟨w, hw, rfl⟩ := Option.map_eq_some_iff.mp hv
    rw [hw, Option.map_some, Option.getD_some] at hsize
    rw [← hsize, Value.toNat_size, List.take_length]
    exact h _ (Lru.mem_of_find hw)

/-- **Stored values have an end** in every state of a run exactly when every `PUT` of the run that
the limit admits has a text with an end. -/
theorem terminated_iff_storesEnd (maxmem : UInt64) {messages : List Bytes}
    {handlings : List Handling}
    (hrun : handleAll (some (CacheObj.createCache maxmem none)) messages = some handlings) :
    (∀ cache ∈ caches (some (CacheObj.createCache maxmem none)) handlings, Terminated cache) ↔
      ∀ h ∈ handlings, h.StoresEnd := by
  constructor
  · intro hterminated h hmem hput cache hbefore hadmits
    obtain ⟨c, hkeeps⟩ := keeps_of_mem_caches maxmem hrun (mem_caches_before hrun hmem hbefore)
    rw [hkeeps.maxmem] at hadmits
    have hact := actOnMessage_of_mem hrun hmem
    rw [hbefore] at hact
    obtain ⟨c', key, hafter, he⟩ := exists_entry_of_put hkeeps hact hput hadmits
    obtain ⟨cache', hport⟩ := Option.ne_none_iff_exists'.mp hafter.ne_none
    rw [hport] at hafter
    have hall := hterminated cache' (mem_caches_after hmem hport)
    rw [terminated_iff hafter] at hall
    rw [HasEnd, ← putValue_text]
    exact hall _ he
  · intro hstores
    have hstep : ∀ (h : Handling) c c', Keeps h.before (some c) → (∀ e ∈ c.entries, 0 ∈ e.2.bytes) →
        h.StoresEnd → c.Effect h.message (some c') h.handled.outcome →
        ∀ e ∈ c'.entries, 0 ∈ e.2.bytes := by
      intro h c c' hkeeps hall hend heffect
      refine heffect.forall_entries (p := fun v ↦ 0 ∈ v.bytes) hall ?_
      intro hput hadmits
      obtain ⟨cache, hbefore⟩ := Option.ne_none_iff_exists'.mp hkeeps.ne_none
      rw [hbefore] at hkeeps
      rw [← hkeeps.maxmem] at hadmits
      rw [putValue_text]
      exact hend hput cache hbefore hadmits
    intro cache hcache
    obtain ⟨c, hkeeps, hall⟩ := reaches _ Handling.StoresEnd hstep (keeps_createCache maxmem)
      (by simp) hrun hstores cache hcache
    exact (terminated_iff hkeeps).mpr hall

theorem terminated_iff_storesEnd_example : ∃ handlings,
    handleAll (some (CacheObj.createCache 100 none)) [ascii "PUT /k/v"] = some handlings ∧
      ∀ cache ∈ caches (some (CacheObj.createCache 100 none)) handlings, Terminated cache := by
  obtain ⟨handled, hrun⟩ : ∃ handled,
      handleAll (some (CacheObj.createCache 100 none)) [ascii "PUT /k/v"]
        = some [⟨some (CacheObj.createCache 100 none), ascii "PUT /k/v", handled⟩] := ⟨_, rfl⟩
  refine ⟨_, hrun, (terminated_iff_storesEnd 100 hrun).mpr ?_⟩
  intro h hmem
  obtain rfl := List.mem_singleton.mp hmem
  have hline : SingleLine (ascii "PUT /k/v") := ⟨by decide, by decide⟩
  have hend : HasEnd (ascii "PUT /k/v") :=
    (hasEnd_iff (by decide)).mpr ⟨6, rfl, hline, by decide⟩
  intro _ _ _ _
  exact hend

/-- A key without a text is stored with an empty value, which a `GET` reads past its end. -/
theorem put_without_text_not_terminated : ∃ handled cache,
    handleAll (some (CacheObj.createCache 100 none)) [ascii "PUT /k"]
        = some [⟨some (CacheObj.createCache 100 none), ascii "PUT /k", handled⟩] ∧
      handled.port = some cache ∧ cache.reads (CStr.ofBytes (ascii "k")) = some (some [], 0) ∧
      ¬ Terminated cache ∧ actOnMessage (some cache) (ascii "GET /k") = none := by
  refine ⟨_, _, rfl, rfl, rfl, ?_, rfl⟩
  intro hterminated
  exact absurd (hterminated (CStr.ofBytes (ascii "k")) [] 0 rfl) List.not_mem_nil

/-! ## Empty texts -/

/-- The message is a `POST memsize` with a number. -/
def AsksLimit (message : Bytes) (n : ℤ) : Prop :=
  ∃ info1 info2, parts message = some ⟨ascii "POST", info1, info2⟩ ∧
    strip info1 = some (ascii "memsize") ∧ stoll info2 = .ok n ∧ 0 ≤ n

/-- The cache is destroyed, and a new one with the limit takes its place. -/
def Resizes (cache : CacheObj) (message : Bytes) (n : ℤ) : Prop :=
  ∃ links keys infos, cache.destroyCache = some (links, keys, infos) ∧
    actOnMessage (some cache) message
      = some ⟨some (CacheObj.createCacheIn links keys infos (UInt64.ofInt n) none), .ok none⟩

/-- The limit is changed when the cache has no entry, and otherwise the answer is `ERROR` and the
cache stays. -/
def ResizesIfEmpty (cache : CacheObj) (message : Bytes) (n : ℤ) : Prop :=
  if cache.numElements = 0 then Resizes cache message n
  else actOnMessage (some cache) message = some ⟨some cache, .ok (some errorText)⟩

/-- A `PUT` has a text, and the limit leaves room for one more value below `2 ^ 64`. -/
def Handling.StoresBytes (h : Handling) : Prop :=
  IsPut h.message → textSize h.message ≠ 0 ∧
    ∀ cache, h.before = some cache → cache.maxmem.toNat ≤ 2 ^ 64 - 2 ^ 32

/-- What the server does with a limit: it looks at the space used. -/
theorem act_limit {cache : CacheObj} (h : Keeps (some cache) (some c)) {n : ℤ}
    (hasks : AsksLimit message n) : if cache.cacheSpaceUsed = 0 then Resizes cache message n
      else actOnMessage (some cache) message = some ⟨some cache, .ok (some errorText)⟩ := by
  obtain ⟨info1, info2, hparts, hmemsize, hnum, -⟩ := hasks
  obtain ⟨cache', ⟨links, keys, infos⟩, hcache, hfreed⟩ := h.alive
  obtain rfl := Option.some.inj hcache
  have hdispatch : actOnMessage (some cache) message = post (some cache) info1 info2 := by
    rw [actOnMessage, hparts]
    rfl
  rw [Resizes, hdispatch, post_memsize hmemsize]
  simp only [Option.bind_eq_bind, Option.bind_some]
  split_ifs with hused
  · exact ⟨links, keys, infos, hfreed, by rw [hfreed, Option.bind_some, hnum]⟩
  · rfl

theorem resizesIfEmpty_iff {cache : CacheObj} (h : Keeps (some cache) (some c)) {n : ℤ}
    (hasks : AsksLimit message n) :
    ResizesIfEmpty cache message n ↔ cache.numElements = 0 ∨ cache.cacheSpaceUsed ≠ 0 := by
  have hspace : cache.numElements = 0 → cache.cacheSpaceUsed = 0 := by
    obtain ⟨cache', l, hcache, hr, hl⟩ := h
    obtain rfl := Option.some.inj hcache
    intro hempty
    rw [hr.count, List.length_eq_zero_iff] at hempty
    rw [CacheObj.cacheSpaceUsed, hr.used, hempty]
    rfl
  have hact := act_limit h hasks
  rw [ResizesIfEmpty]
  by_cases hempty : cache.numElements = 0
  · rw [if_pos (hspace hempty)] at hact
    rw [if_pos hempty]
    exact iff_of_true hact (Or.inl hempty)
  · rw [if_neg hempty]
    by_cases hused : cache.cacheSpaceUsed = 0
    · -- the answer would be `ERROR`, and there is none
      rw [if_pos hused] at hact
      obtain ⟨links, keys, infos, -, hact⟩ := hact
      rw [hact]
      refine iff_of_false ?_ (by simp [hempty, hused])
      simp
    · rw [if_neg hused] at hact
      exact iff_of_true hact (Or.inr hused)

/-- No value is empty, and together they fit. -/
structure Contents.Solid (c : Contents) : Prop where
  /-- No value is empty. -/
  nonempty : ∀ e ∈ c.entries, e.2.size ≠ 0
  /-- The values fit. -/
  total_le : Lru.total (fun v : Value ↦ v.size.toNat) c.entries ≤ c.limit.toNat

theorem Contents.Solid.entries_eq_nil (h : c.Solid) (hused : c.spaceUsed = 0) :
    c.entries = [] := by
  have htotal : Lru.total (fun v : Value ↦ v.size.toNat) c.entries = 0 := by
    rw [← Lru.toNat_wordTotal_of_lt (h.total_le.trans_lt c.limit.toNat_lt)]
    exact congrArg UInt64.toNat hused
  cases hentries : c.entries with
  | nil => rfl
  | cons e l =>
    rw [hentries, Lru.total_cons, Nat.add_eq_zero_iff] at htotal
    have hsize := h.nonempty e (hentries ▸ List.mem_cons_self)
    exact absurd (UInt32.toNat_inj.mp htotal.1) hsize

theorem Contents.Effect.solid (heffect : c.Effect message (some c') outcome)
    (hnd : (Lru.keys c.entries).Nodup) (h : c.Solid)
    (hput : IsPut message → textSize message ≠ 0 ∧ c.limit.toNat ≤ 2 ^ 64 - 2 ^ 32) :
    c'.Solid where
  nonempty := by
    refine heffect.forall_entries (p := fun v ↦ v.size ≠ 0) h.nonempty ?_
    intro hmessage _
    rw [size_putValue_text]
    exact (hput hmessage).1
  total_le := by
    cases heffect with
    | keep => exact h.total_le
    | get reply hparts =>
      rw [Contents.apply, Lru.step_get]
      exact (Lru.total_perm (Lru.touch_perm hnd)).le.trans h.total_le
    | put hparts =>
      rw [Contents.put, Lru.put_word_eq (hput ⟨_, _, hparts⟩).2 h.total_le]
      exact Lru.total_put_le h.total_le
    | delete hparts => exact (Lru.total_sublist Lru.remove_sublist).trans h.total_le
    | resize n hused => exact Nat.zero_le _

/-- **Whether a limit is accepted**: in every state of a run exactly when the cache has no entry or
uses space; and in every state, when every `PUT` of the run has a text. -/
theorem resizesIfEmpty_of_storesBytes (maxmem : UInt64) {messages : List Bytes}
    {handlings : List Handling}
    (hrun : handleAll (some (CacheObj.createCache maxmem none)) messages = some handlings) :
    (∀ cache ∈ caches (some (CacheObj.createCache maxmem none)) handlings, ∀ message n,
      AsksLimit message n →
        (ResizesIfEmpty cache message n ↔ cache.numElements = 0 ∨ cache.cacheSpaceUsed ≠ 0)) ∧
    ((∀ h ∈ handlings, h.StoresBytes) →
      ∀ cache ∈ caches (some (CacheObj.createCache maxmem none)) handlings, ∀ message n,
        AsksLimit message n → ResizesIfEmpty cache message n) := by
  constructor
  · intro cache hcache message n hasks
    obtain ⟨c, hkeeps⟩ := keeps_of_mem_caches maxmem hrun hcache
    exact resizesIfEmpty_iff hkeeps hasks
  · intro hstores cache hcache message n hasks
    have hstep : ∀ (h : Handling) c c', Keeps h.before (some c) → c.Solid → h.StoresBytes →
        c.Effect h.message (some c') h.handled.outcome → c'.Solid := by
      intro h c c' hkeeps hsolid hbytes heffect
      refine heffect.solid hkeeps.nodup_keys hsolid ?_
      intro hput
      obtain ⟨cache, hbefore⟩ := Option.ne_none_iff_exists'.mp hkeeps.ne_none
      rw [hbefore] at hkeeps
      obtain ⟨hsize, hlimit⟩ := hbytes hput
      exact ⟨hsize, hkeeps.maxmem ▸ hlimit cache hbefore⟩
    obtain ⟨c, hkeeps, hsolid⟩ := reaches _ Handling.StoresBytes hstep (keeps_createCache maxmem)
      ⟨by simp, Nat.zero_le _⟩ hrun hstores cache hcache
    rw [resizesIfEmpty_iff hkeeps hasks, or_iff_not_imp_right, not_not]
    intro hused
    obtain ⟨cache', l, hport, hr, hl⟩ := hkeeps
    obtain rfl := Option.some.inj hport
    rw [CacheObj.cacheSpaceUsed, hr.used, hl] at hused
    have hentries := hsolid.entries_eq_nil hused
    rw [← hl, List.map_eq_nil_iff] at hentries
    rw [hr.count, hentries, List.length_nil]

theorem asksLimit_five : AsksLimit (ascii "POST /memsize/5") 5 :=
  ⟨ascii "memsize", ascii "5" ++ [0], rfl, by decide, by decide, by decide⟩

theorem resizesIfEmpty_of_storesBytes_example : ∃ handled cache,
    handleAll (some (CacheObj.createCache 100 none)) [ascii "PUT /k/v"]
        = some [⟨some (CacheObj.createCache 100 none), ascii "PUT /k/v", handled⟩] ∧
      handled.port = some cache ∧ cache.numElements = 1 ∧
      ResizesIfEmpty cache (ascii "POST /memsize/5") 5 := by
  obtain ⟨handled, cache, hrun, hport, hone⟩ : ∃ handled cache,
      handleAll (some (CacheObj.createCache 100 none)) [ascii "PUT /k/v"]
        = some [⟨some (CacheObj.createCache 100 none), ascii "PUT /k/v", handled⟩] ∧
      handled.port = some cache ∧ cache.numElements = 1 := ⟨_, _, rfl, rfl, rfl⟩
  refine ⟨handled, cache, hrun, hport, hone, ?_⟩
  refine (resizesIfEmpty_of_storesBytes 100 hrun).2 ?_ cache
    (mem_caches_after (List.mem_singleton_self _) hport) _ _ asksLimit_five
  intro h hmem
  obtain rfl := List.mem_singleton.mp hmem
  have hsize : textSize (ascii "PUT /k/v") ≠ 0 := by decide
  intro _
  refine ⟨hsize, ?_⟩
  intro cache' hbefore
  obtain rfl := Option.some.inj hbefore
  decide

/-- The only entry is empty, so the cache counts as empty and is thrown away. -/
theorem resize_discards_entry : ∃ handled cache cache',
    handleAll (some (CacheObj.createCache 100 none)) [ascii "PUT /k"]
        = some [⟨some (CacheObj.createCache 100 none), ascii "PUT /k", handled⟩] ∧
      handled.port = some cache ∧ cache.numElements = 1 ∧ AsksLimit (ascii "POST /memsize/5") 5 ∧
      actOnMessage (some cache) (ascii "POST /memsize/5") = some ⟨some cache', .ok none⟩ ∧
      cache'.numElements = 0 ∧ cache'.maxmem = 5 ∧
      ¬ ResizesIfEmpty cache (ascii "POST /memsize/5") 5 := by
  obtain ⟨handled, cache, hrun, hport, hone, hspace⟩ : ∃ handled cache,
      handleAll (some (CacheObj.createCache 100 none)) [ascii "PUT /k"]
        = some [⟨some (CacheObj.createCache 100 none), ascii "PUT /k", handled⟩] ∧
      handled.port = some cache ∧ cache.numElements = 1 ∧ cache.cacheSpaceUsed = 0 :=
    ⟨_, _, rfl, rfl, rfl, rfl⟩
  obtain ⟨c, hkeeps⟩ :=
    keeps_of_mem_caches 100 hrun (mem_caches_after (List.mem_singleton_self _) hport)
  have hact := act_limit hkeeps asksLimit_five
  rw [if_pos hspace] at hact
  obtain ⟨links, keys, infos, -, hact⟩ := hact
  refine ⟨handled, cache, _, hrun, hport, hone, asksLimit_five, hact, rfl, rfl, ?_⟩
  · rw [resizesIfEmpty_iff hkeeps asksLimit_five, hone, hspace]
    simp

end Server

end NetCache
