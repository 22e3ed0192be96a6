import Mathlib.Data.List.ReduceOption
import NetCache.Server.Parsing
import NetCache.Server.Requests

/-!
# Sequences of messages

What holds of the handle and of the stored values after any messages.

## What a message can do

`Contents.act_cases` says once what a message can do to the contents: nothing, the call of the LRU
store that its parts name, or a new limit with no entries, or the loss of the cache.

## Runs

Messages are given to `act_on_message` one after the other, and also after one of them has thrown:
what is shown here of the handle and of the stored values holds whoever catches the exception.
`reaches` carries an invariant along such a sequence, from one case analysis on what a message does,
and `Reachable.invariant` does the same for a server that runs.

## The handle

A handle is alive when it refers to a cache that can be destroyed. It is alive after every message
of a run, and what is thrown leaves the cache as it was, exactly when no `POST memsize` of the run
has a number that cannot be read while no space is used (`sound_iff`). Such a message destroys the
cache and then throws; what runs into the handle after that is undefined.
-/

namespace NetCache

open Text

namespace Server

variable {c : Contents} {message : Bytes} {port : Option CacheObj}

/-! ## What a message does to the contents

The case distinction on the verb, with the guards of each handler. A message that throws leaves
the contents as they were, but for the `POST memsize` whose number cannot be read. -/

/-- What a message can do to the contents, with the contents that are left. -/
inductive Contents.Effect (c : Contents) (message : Bytes) :
    Option Contents → Except Thrown (Option Bytes) → Prop
  /-- The contents stay. -/
  | keep (outcome : Except Thrown (Option Bytes)) : Effect c message (some c) outcome
  /-- A `GET` that hits. -/
  | get {info1 info2 : Bytes} (reply : Bytes)
      (hparts : parts message = some ⟨ascii "GET", info1, info2⟩) :
      Effect c message (some (c.apply (.get (CStr.ofBytes info1)))) (.ok (some reply))
  /-- A `PUT`. -/
  | put {info1 info2 : Bytes} (hparts : parts message = some ⟨ascii "PUT", info1, info2⟩) :
      Effect c message (some (c.put info1 info2)) (.ok none)
  /-- A `DELETE`. -/
  | delete {info1 info2 : Bytes} (hparts : parts message = some ⟨ascii "DELETE", info1, info2⟩) :
      Effect c message (some (c.delete info1)) (.ok none)
  /-- A `POST memsize` that is accepted. -/
  | resize (n : ℤ) (hused : c.spaceUsed = 0) :
      Effect c message (some ⟨UInt64.ofInt n, []⟩) (.ok none)
  /-- A `POST memsize` whose number cannot be read. -/
  | lose (e : ConversionError) : Effect c message none (.error (.conversion e))

theorem Contents.get_cases {e : Option Contents} {outcome : Except Thrown (Option Bytes)}
    {info1 info2 : Bytes} (hparts : parts message = some ⟨ascii "GET", info1, info2⟩)
    (h : c.get info1 = some (e, outcome)) : c.Effect message e outcome := by
  rw [Contents.get] at h
  cases hfind : Lru.find (CStr.ofBytes info1) c.entries with
  | none =>
    rw [hfind] at h
    obtain ⟨rfl, rfl⟩ := Prod.mk.inj (Option.some.inj h)
    exact .keep _
  | some v =>
    rw [hfind] at h
    simp only at h
    split_ifs at h
    obtain ⟨rfl, rfl⟩ := Prod.mk.inj (Option.some.inj h)
    have heffect := Effect.get (c := c)
      (jsonText info1.dropLast (v.bytes.takeWhile (· ≠ 0))) hparts
    rwa [Contents.apply, Lru.step_get] at heffect

theorem Contents.post_cases (c : Contents) (message info1 info2 : Bytes) :
    c.Effect message (c.post info1 info2).1 (c.post info1 info2).2 := by
  rw [Contents.post]
  cases strip info1 with
  | none => exact .keep _
  | some type =>
    simp only
    split_ifs with hshutdown hmemsize hused
    · exact .keep _
    · cases stoll info2 with
      | ok n => exact .resize n hused
      | error e => exact .lose e
    · exact .keep _
    · exact .keep _

theorem Contents.act_cases {e : Option Contents} {outcome : Except Thrown (Option Bytes)}
    (h : c.act message = some (e, outcome)) : c.Effect message e outcome := by
  rw [Contents.act] at h
  cases hparts : parts message with
  | none =>
    rw [hparts] at h
    obtain ⟨rfl, rfl⟩ := Prod.mk.inj (Option.some.inj h)
    exact .keep _
  | some p =>
    obtain ⟨fword, info1, info2⟩ := p
    rw [hparts] at h
    simp only at h
    split_ifs at h with hget hput hdelete hhead hpost
    · exact Contents.get_cases (hget ▸ hparts) h
    · obtain ⟨rfl, rfl⟩ := Prod.mk.inj (Option.some.inj h)
      exact .put (hput ▸ hparts)
    · obtain ⟨rfl, rfl⟩ := Prod.mk.inj (Option.some.inj h)
      exact .delete (hdelete ▸ hparts)
    · obtain ⟨rfl, rfl⟩ := Prod.mk.inj (Option.some.inj h)
      exact .keep _
    · have hpost := Contents.post_cases c message info1 info2
      rwa [Option.some.inj h] at hpost
    · obtain ⟨rfl, rfl⟩ := Prod.mk.inj (Option.some.inj h)
      exact .keep _

/-! ## Runs -/

/-- A message that was handled. -/
structure Handling where
  /-- The handle before. -/
  before : Option CacheObj
  /-- The message. -/
  message : Bytes
  /-- How its handling ended. -/
  handled : Handled

/-- Messages are given to `act_on_message` one after the other. -/
def handleAll (port : Option CacheObj) : List Bytes → Option (List Handling)
  | [] => some []
  | message :: messages => do
    let handled ← actOnMessage port message
    let handlings ← handleAll handled.port messages
    some (⟨port, message, handled⟩ :: handlings)

/-- What the handle refers to along a run, from its beginning on. -/
def caches (port : Option CacheObj) (handlings : List Handling) : List CacheObj :=
  (port :: handlings.map fun h ↦ h.handled.port).reduceOption

theorem handleAll_cons {messages : List Bytes} {handlings : List Handling}
    (h : handleAll port (message :: messages) = some handlings) :
    ∃ handled rest, actOnMessage port message = some handled ∧
      handleAll handled.port messages = some rest ∧
      handlings = ⟨port, message, handled⟩ :: rest := by
  rw [handleAll] at h
  simp only [Option.bind_eq_bind, Option.bind_eq_some_iff] at h
  obtain ⟨handled, hact, rest, hrest, h⟩ := h
  exact ⟨handled, rest, hact, hrest, (Option.some.inj h).symm⟩

theorem caches_cons (h : Handling) (handlings : List Handling) :
    caches port (h :: handlings) = port.toList ++ caches h.handled.port handlings := by
  cases port <;> rfl

/-- A handler whose end leaves a handle leaves one to a live cache. -/
theorem keeps_after {handled : Handled} (h : Keeps port (some c))
    (hact : actOnMessage port message = some handled) :
    ∃ e, c.Effect message e handled.outcome ∧ Keeps handled.port e := by
  have hrel := actOnMessage_refines h message
  rw [hact] at hrel
  generalize hended : c.act message = ended at hrel
  cases hrel with
  | some hrefines =>
    rename_i ended
    obtain ⟨e, outcome⟩ := ended
    obtain rfl : outcome = handled.outcome := hrefines.outcome.symm
    exact ⟨e, Contents.act_cases hended, hrefines.port⟩

theorem port_eq_none_of_post {postType extraInfo : Bytes} {handled : Handled}
    (hact : post none postType extraInfo = some handled) : handled.port = none := by
  rw [post] at hact
  split at hact
  · exact (congrArg Handled.port (Option.some.inj hact)).symm
  · simp only [Option.bind_eq_bind, Option.bind_none] at hact
    split_ifs at hact <;> exact (congrArg Handled.port (Option.some.inj hact)).symm

/-- Without a cache, what a message can do it does without one. -/
theorem port_eq_none {handled : Handled} (hact : actOnMessage none message = some handled) :
    handled.port = none := by
  rw [actOnMessage] at hact
  cases hparts : parts message with
  | none =>
    rw [hparts] at hact
    exact (congrArg Handled.port (Option.some.inj hact)).symm
  | some p =>
    rw [hparts] at hact
    simp only [get, put, delete_, head, Option.bind_eq_bind, Option.bind_none] at hact
    split_ifs at hact
    · exact (congrArg Handled.port (Option.some.inj hact)).symm
    · exact port_eq_none_of_post hact
    · exact (congrArg Handled.port (Option.some.inj hact)).symm

theorem caches_none {messages : List Bytes} {handlings : List Handling}
    (hrun : handleAll none messages = some handlings) : caches none handlings = [] := by
  induction messages generalizing handlings with
  | nil =>
    obtain rfl := Option.some.inj hrun
    rfl
  | cons message messages ih =>
    obtain ⟨handled, rest, hact, hrest, rfl⟩ := handleAll_cons hrun
    rw [caches_cons, port_eq_none hact]
    exact ih (port_eq_none hact ▸ hrest)

/-- **Invariants of a run.** What the messages keep that satisfy `Q` holds of all contents that a
run of such messages meets. -/
theorem reaches (P : Contents → Prop) (Q : Handling → Prop)
    (hstep : ∀ h c c', Keeps h.before (some c) → P c → Q h →
      c.Effect h.message (some c') h.handled.outcome → P c')
    {messages : List Bytes} {handlings : List Handling} (hport : Keeps port (some c)) (hc : P c)
    (hrun : handleAll port messages = some handlings) (hQ : ∀ h ∈ handlings, Q h) :
    ∀ cache ∈ caches port handlings, ∃ c', Keeps (some cache) (some c') ∧ P c' := by
  -- induction on the messages; once the cache is lost there is none to speak about
  induction messages generalizing port c handlings with
  | nil =>
    obtain rfl := Option.some.inj hrun
    intro cache hcache
    obtain rfl : port = some cache := by
      simpa [caches, List.reduceOption_mem_iff, eq_comm] using hcache
    exact ⟨c, hport, hc⟩
  | cons message messages ih =>
    obtain ⟨handled, rest, hact, hrest, rfl⟩ := handleAll_cons hrun
    obtain ⟨hQfirst, hQrest⟩ := List.forall_mem_cons.mp hQ
    intro cache hcache
    rw [caches_cons, List.mem_append, Option.mem_toList] at hcache
    rcases hcache with rfl | hcache
    · exact ⟨c, hport, hc⟩
    · obtain ⟨e, heffect, hafter⟩ := keeps_after hport hact
      cases e with
      | none =>
        have hnone : handled.port = none := hafter
        rw [hnone] at hrest
        rw [hnone, caches_none hrest] at hcache
        exact absurd hcache List.not_mem_nil
      | some c' =>
        exact ih hafter (hstep _ c c' hport hc hQfirst heffect) hrest hQrest cache hcache

theorem keeps_of_mem_caches (maxmem : UInt64) {messages : List Bytes} {handlings : List Handling}
    (hrun : handleAll (some (CacheObj.createCache maxmem none)) messages = some handlings)
    {cache : CacheObj}
    (hcache : cache ∈ caches (some (CacheObj.createCache maxmem none)) handlings) :
    ∃ c, Keeps (some cache) (some c) := by
  obtain ⟨c, hkeeps, -⟩ := reaches (fun _ ↦ True) (fun _ ↦ True) (fun _ _ _ _ _ _ _ ↦ trivial)
    (keeps_createCache maxmem) trivial hrun (fun _ _ ↦ trivial) cache hcache
  exact ⟨c, hkeeps⟩

theorem mem_caches_after {handlings : List Handling} {h : Handling} (hmem : h ∈ handlings)
    {cache : CacheObj} (hafter : h.handled.port = some cache) : cache ∈ caches port handlings := by
  rw [caches, List.reduceOption_mem_iff, ← hafter]
  exact List.mem_cons_of_mem _ (List.mem_map_of_mem hmem)

theorem mem_caches_before {messages : List Bytes} {handlings : List Handling}
    (hrun : handleAll port messages = some handlings) {h : Handling} (hmem : h ∈ handlings)
    {cache : CacheObj} (hbefore : h.before = some cache) : cache ∈ caches port handlings := by
  induction messages generalizing port handlings with
  | nil =>
    obtain rfl := Option.some.inj hrun
    exact absurd hmem List.not_mem_nil
  | cons message messages ih =>
    obtain ⟨handled, rest, -, hrest, rfl⟩ := handleAll_cons hrun
    rw [caches_cons]
    rcases List.mem_cons.mp hmem with rfl | hmem
    · exact List.mem_append_left _ (Option.mem_toList.mpr hbefore)
    · exact List.mem_append_right _ (ih hrest hmem)

/-! ## Running servers -/

/-- **Invariants of a running server.** What every message keeps that does not stop the server holds
of the contents of each of its states. -/
theorem Reachable.invariant {s : State} (P : Contents → Prop) (hstart : ∀ limit, P ⟨limit, []⟩)
    (hstep : ∀ c c' message outcome, P c → c.Effect message (some c') outcome → P c')
    (hs : Reachable s) : ∃ c, Keeps s.port (some c) ∧ P c := by
  have hact : ∀ {port message handled reply} {c : Contents}, Keeps port (some c) → P c →
      actOnMessage port message = some handled → handled.outcome = .ok reply →
      ∃ c', Keeps handled.port (some c') ∧ P c' := by
    intro port message handled reply c hc hP hact hok
    obtain ⟨e, heffect, hafter⟩ := keeps_after hc hact
    cases e with
    | none =>
      -- only a number that cannot be read loses the cache
      rw [hok] at heffect
      cases heffect
    | some c' => exact ⟨c', hafter, hstep c c' message _ hP heffect⟩
  induction hs with
  | start maxmem recbuf => exact ⟨_, keeps_createCache _, hstart _⟩
  | step _ hevent ih =>
    rename_i s s' event reply _
    obtain ⟨c, hc, hP⟩ := ih
    rcases State.step_cases hevent with ⟨message, handled, hhandled, hport, hok⟩ | hport
    · rw [← hport]
      exact hact hc hP hhandled hok
    · rw [hport]
      exact ⟨c, hc, hP⟩

/-- **The handle of a running server** refers to a live cache. -/
theorem Reachable.keeps {s : State} (hs : Reachable s) : ∃ c, Keeps s.port (some c) := by
  obtain ⟨c, hc, -⟩ := hs.invariant (fun _ ↦ True) (fun _ ↦ trivial) fun _ _ _ _ _ _ ↦ trivial
  exact ⟨c, hc⟩

/-! ## The handle -/

/-- The handle refers to a cache that has been created and not yet destroyed: it can be
destroyed. -/
def Alive (port : Option CacheObj) : Prop :=
  ∃ cache freed, port = some cache ∧ cache.destroyCache = some freed

/-- The end of a handler leaves a live cache, the one from before if something was thrown. -/
structure Handling.Sound (h : Handling) : Prop where
  /-- The handle refers to a live cache. -/
  alive : Alive h.handled.port
  /-- What is thrown leaves the cache as it was. -/
  rollback : ∀ e, h.handled.outcome = .error e → h.handled.port = h.before

/-- The message is a `POST memsize` with a number that cannot be read, and no space is used. -/
def Handling.LosesCache (h : Handling) : Prop :=
  ∃ info1 info2, parts h.message = some ⟨ascii "POST", info1, info2⟩ ∧
    ResizeFails h.before info1 info2

theorem Keeps.alive (h : Keeps port (some c)) : Alive port := by
  obtain ⟨cache, l, rfl, hr, -⟩ := h
  obtain ⟨links, keys, infos, hdestroy, -⟩ := hr.destroyCache
  exact ⟨cache, _, rfl, hdestroy⟩

theorem Keeps.ne_none (h : Keeps port (some c)) : port ≠ none := by
  obtain ⟨cache, -, rfl, -⟩ := h
  simp

theorem actOnMessage_of_mem {messages : List Bytes} {handlings : List Handling}
    (hrun : handleAll port messages = some handlings) {h : Handling} (hmem : h ∈ handlings) :
    actOnMessage h.before h.message = some h.handled := by
  induction messages generalizing port handlings with
  | nil =>
    obtain rfl := Option.some.inj hrun
    exact absurd hmem List.not_mem_nil
  | cons message messages ih =>
    obtain ⟨handled, rest, hact, hrest, rfl⟩ := handleAll_cons hrun
    rcases List.mem_cons.mp hmem with rfl | hmem
    · exact hact
    · exact ih hrest hmem

theorem port_eq_none_of_losesCache {h : Handling}
    (hact : actOnMessage h.before h.message = some h.handled) (hloses : h.LosesCache) :
    h.handled.port = none := by
  obtain ⟨info1, info2, hparts, cache, e, hbefore, hmemsize, hused, hnum⟩ := hloses
  have hpost : post h.before info1 info2 = some h.handled := by
    rw [actOnMessage, hparts] at hact
    exact hact
  rw [post_memsize hmemsize, hbefore] at hpost
  simp only [Option.bind_eq_bind, Option.bind_some, if_pos hused, hnum,
    Option.bind_eq_some_iff] at hpost
  obtain ⟨freed, -, hhandled⟩ := hpost
  exact (congrArg Handled.port (Option.some.inj hhandled)).symm

theorem sound_of_keeps {messages : List Bytes} {handlings : List Handling}
    (hport : Keeps port (some c)) (hrun : handleAll port messages = some handlings)
    (hok : ∀ h ∈ handlings, ¬ h.LosesCache) : ∀ h ∈ handlings, h.Sound := by
  induction messages generalizing port c handlings with
  | nil =>
    obtain rfl := Option.some.inj hrun
    simp
  | cons message messages ih =>
    obtain ⟨handled, rest, hact, hrest, rfl⟩ := handleAll_cons hrun
    obtain ⟨hfirst, hlater⟩ := List.forall_mem_cons.mp hok
    have hstep : handled.port ≠ none ∧ ∀ e, handled.outcome = .error e → handled.port = port := by
      rcases actOnMessage_cases hact with
        ⟨cache, reply, rfl⟩ | rfl | ⟨e, -, rfl⟩ | ⟨info1, info2, e, hparts, hfails, rfl⟩
      · exact ⟨by simp, by simp⟩
      · exact ⟨hport.ne_none, by simp⟩
      · exact ⟨hport.ne_none, by simp⟩
      · exact absurd ⟨info1, info2, hparts, hfails⟩ hfirst
    obtain ⟨e, -, hafter⟩ := keeps_after hport hact
    cases e with
    | none => exact absurd hafter hstep.1
    | some c' =>
      exact List.forall_mem_cons.mpr ⟨⟨hafter.alive, hstep.2⟩, ih hafter hrest hlater⟩

/-- **The handle of the server** refers to a live cache after every message of a run, and what is
thrown leaves the cache as it was, exactly when no `POST memsize` of the run fails. -/
theorem sound_iff (maxmem : UInt64) {messages : List Bytes} {handlings : List Handling}
    (hrun : handleAll (some (CacheObj.createCache maxmem none)) messages = some handlings) :
    (∀ h ∈ handlings, h.Sound) ↔ ∀ h ∈ handlings, ¬ h.LosesCache := by
  constructor
  · intro hsound h hmem hloses
    obtain ⟨cache, -, hcache, -⟩ := (hsound h hmem).alive
    rw [port_eq_none_of_losesCache (actOnMessage_of_mem hrun hmem) hloses] at hcache
    simp at hcache
  · exact sound_of_keeps (keeps_createCache maxmem) hrun

theorem sound_iff_example : ∃ handlings,
    handleAll (some (CacheObj.createCache 100 none)) [ascii "PUT /k/v", ascii "GET /k"]
      = some handlings ∧
      ((∀ h ∈ handlings, h.Sound) ↔ ∀ h ∈ handlings, ¬ h.LosesCache) := by
  obtain ⟨handlings, hrun⟩ : ∃ handlings, handleAll (some (CacheObj.createCache 100 none))
      [ascii "PUT /k/v", ascii "GET /k"] = some handlings := ⟨_, rfl⟩
  exact ⟨handlings, hrun, sound_iff 100 hrun⟩

/-- A `POST memsize` that fails leaves a handle to a cache that is gone. -/
theorem failed_resize_not_sound : ∃ handled,
    handleAll (some (CacheObj.createCache 100 none)) [ascii "POST /memsize/abc"]
        = some [⟨some (CacheObj.createCache 100 none), ascii "POST /memsize/abc", handled⟩] ∧
      handled.outcome = .error (.conversion .invalidArgument) ∧ ¬ Alive handled.port := by
  obtain ⟨cache, freed, hcache, hfreed⟩ := (keeps_createCache 100).alive
  obtain rfl := Option.some.inj hcache
  have hact : actOnMessage (some (CacheObj.createCache 100 none)) (ascii "POST /memsize/abc")
      = some ⟨none, .error (.conversion .invalidArgument)⟩ := by
    have hdispatch : ∀ port, actOnMessage port (ascii "POST /memsize/abc")
        = post port (ascii "memsize") (ascii "abc" ++ [0]) := fun _ ↦ rfl
    have hused : (CacheObj.createCache 100 none).cacheSpaceUsed = 0 := rfl
    have hnum : stoll (ascii "abc" ++ [0]) = .error .invalidArgument := by decide
    rw [hdispatch, post_memsize (by decide)]
    simp only [Option.bind_eq_bind, Option.bind_some, if_pos hused, hfreed, hnum]
  refine ⟨⟨none, .error (.conversion .invalidArgument)⟩, ?_, rfl, ?_⟩
  · simp only [handleAll, hact, Option.bind_eq_bind, Option.bind_some]
  · rintro ⟨cache, -, hcache, -⟩
    simp at hcache

end Server

end NetCache
