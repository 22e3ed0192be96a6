import NetCache.Client.Agreement
import NetCache.Client.Network
import NetCache.Lru.Overtaking

/-!
# When the network keeps program order

Requests that overtake older ones may change what a `cache_get` finds and what the server has
stored. They do not when each is independent of the requests it overtakes: then the answers, and
what the server has stored once nothing is in flight, are those of program order.

## The condition

`Harmless` asks of each request that the network hands over early that it is independent, in the
sense of the LRU store, of those that it overtakes, at what the server has stored at that moment. It
is also exact for one overtaken request, by the results on the store: a request that is not
independent changes an answer or the entries.

## The invariant

`Net.Tracks` relates a state of the network to program order. Handling what is in flight in the
order of the calls, after what has been handled, gives what program order gives; and the answers so
far, with the one that is on its way, are those of program order. A step that overtakes reorders
what is left to handle, which `Lru.run_overtake` allows.

## The result

`inProgramOrder_of_harmless` compares with a cache in the process: the answers agree, and when
nothing is on its way to the server, the two caches have the same view. The last theorem has a
`cache_get` that overtakes the `cache_delete` of its own key, and finds the deleted value.
-/

namespace NetCache

open Text

namespace Client

/-- A request may overtake older ones it is independent of, given what the server has stored. -/
def Harmless (server : Option Server.State) (older : List (Lru.Call CStr Value))
    (call : Lru.Call CStr Value) : Prop :=
  ∀ s c, server = some s → Server.Keeps s.port (some c) →
    Lru.MayOvertake (Lru.word Value.size c.limit) c.entries call older

/-- The answers are those of program order, and so is what the server has stored once nothing is in
flight on the way to it. Program order is that of a cache in the process. -/
def Net.InProgramOrder (cache₀ : CacheObj) (program : List (Lru.Call CStr Value)) (net : Net) :
    Prop :=
  ∃ returned, program = returned ++ net.waiting.call ++ net.todo ∧
    (∃ cache answers, cache₀.run returned = some (cache, answers) ∧
      List.Forall₂ Agrees net.answers answers) ∧
    (net.inFlight = [] → net.waiting.handled = net.waiting.call →
      ∃ s cache cache' answers, net.server = some s ∧ s.port = some cache ∧
        cache₀.run (returned ++ net.waiting.call) = some (cache', answers) ∧
        cache.SameView cache')

/-! ## What a run keeps -/

variable {lib : JsonLib} {calls program returned rest : List (Lru.Call CStr Value)}
  {c₀ c : Server.Contents} {net net' : Net} {s : Server.State} {call : Lru.Call CStr Value}
  {key : CStr}

/-- The invariant of a run: handling what is in flight in the order of the calls, after what has
been handled, gives what program order gives. -/
structure Net.Tracks (lib : JsonLib) (calls program : List (Lru.Call CStr Value))
    (c₀ : Server.Contents) (net : Net) (returned : List (Lru.Call CStr Value)) (s : Server.State)
    (c : Server.Contents) : Prop where
  /-- The calls come in program order. -/
  program : program = returned ++ net.waiting.call ++ net.todo
  /-- The server runs. -/
  server : net.server = some s
  /-- It keeps the contents. -/
  keeps : Server.Keeps s.port (some c)
  /-- The limit stays. -/
  limit : c.limit = c₀.limit
  /-- What is stored was stored by one of the calls. -/
  stored : StoredBy calls c.entries
  /-- Every call in flight has a stream. -/
  streams : ∀ call ∈ net.inFlight, ∃ stream, streamOfCall call = some stream
  /-- A datagram that is waited for was sent. -/
  sent : ∀ key, net.waiting = .request key → (getRequest key).length ≤ maxDatagram
  /-- Every call in flight is one of the calls. -/
  known : ∀ call ∈ net.inFlight, call ∈ calls
  /-- The entries are those of program order, once what is in flight is handled. -/
  entries : (Lru.run (Lru.word Value.size c₀.limit) c.entries net.inFlight).1
    = (Lru.run (Lru.word Value.size c₀.limit) c₀.entries (returned ++ net.waiting.handled)).1
  /-- The answers are those of program order. -/
  answers : net.answers
    = (Lru.run (Lru.word Value.size c₀.limit) c₀.entries returned).2.map (some ∘ Answer.ofReply)
  /-- So is the one in the reply. -/
  reply : ∀ key message, net.waiting = .reply key message → ∀ buffer,
    receiveAnswer lib key buffer message = some (Answer.ofReply
      (Lru.step (Lru.word Value.size c₀.limit)
        (Lru.run (Lru.word Value.size c₀.limit) c₀.entries returned).1 (.get key)).2)

theorem step_of_stream {C : Lru.Capacity CStr Value} {l : List (CStr × Value)} {stream : Bytes}
    (h : streamOfCall call = some stream) : (Lru.step C l call).2 = .done := by
  cases call with
  | set key v => rfl
  | get key => exact absurd rfl (ne_get_of_stream h key)
  | delete key => rfl

namespace Net.Tracks

variable (h : net.Tracks lib calls program c₀ returned s c)
include h

theorem send {stream : Bytes} (hidle : net.waiting = .nothing) (htodo : net.todo = call :: rest)
    (hstream : streamOfCall call = some stream) (hmem : call ∈ calls) :
    Net.Tracks lib calls program c₀
      { net with
        todo := rest
        inFlight := net.inFlight ++ [call]
        answers := net.answers ++ [some .void] } (returned ++ [call]) s c where
  program := by
    have hprogram := h.program
    rw [htodo] at hprogram
    simpa [hidle, Waiting.call] using hprogram
  server := h.server
  keeps := h.keeps
  limit := h.limit
  stored := h.stored
  streams := by
    intro call' hcall'
    rcases List.mem_append.mp hcall' with hcall' | hcall'
    · exact h.streams call' hcall'
    · exact ⟨stream, List.mem_singleton.mp hcall' ▸ hstream⟩
  sent := h.sent
  known := by
    intro call' hcall'
    rcases List.mem_append.mp hcall' with hcall' | hcall'
    · exact h.known call' hcall'
    · exact List.mem_singleton.mp hcall' ▸ hmem
  entries := by
    have hentries := h.entries
    simp only [hidle, Waiting.handled, List.append_nil] at hentries ⊢
    rw [Lru.run_concat, Lru.run_concat, hentries]
  answers := by
    rw [Lru.run_concat, List.map_append, ← h.answers, step_of_stream hstream]
    rfl
  reply := by
    intro key message hreplied
    exact absurd (hidle.symm.trans hreplied) (by simp)

theorem ask (hidle : net.waiting = .nothing) (htodo : net.todo = .get key :: rest)
    (hsent : (getRequest key).length ≤ maxDatagram) :
    Net.Tracks lib calls program c₀ { net with todo := rest, waiting := .request key }
      returned s c where
  program := by
    have hprogram := h.program
    rw [htodo] at hprogram
    simpa [hidle, Waiting.call] using hprogram
  server := h.server
  keeps := h.keeps
  limit := h.limit
  stored := h.stored
  streams := h.streams
  sent := by
    intro key' hasked
    exact Waiting.request.inj hasked ▸ hsent
  known := h.known
  entries := by
    have hentries := h.entries
    rwa [hidle] at hentries
  answers := h.answers
  reply := by simp

theorem handleStream (hlib : lib.Conforming) (hdom : InDomain calls)
    (hcut : ∀ key, .delete key ∈ calls → ¬ CutOff key) {older newer : List (Lru.Call CStr Value)}
    {d : Delivery} (hinFlight : net.inFlight = older ++ call :: newer) (hd : d.Complete call)
    (hmay : Harmless net.server older call) :
    ∃ s', Net.Tracks lib calls program c₀
      { net with
        inFlight := older ++ newer
        server := (serve net.server (.stream d.pieces)).1 } returned s' (c.apply call) := by
  have hmem : call ∈ net.inFlight := by simp [hinFlight]
  have hsub : ∀ call' ∈ older ++ newer, call' ∈ net.inFlight := by
    intro call' hcall'
    rw [hinFlight]
    rcases List.mem_append.mp hcall' with hcall' | hcall'
    · exact List.mem_append_left _ hcall'
    · exact List.mem_append_right _ (List.mem_cons_of_mem _ hcall')
  obtain ⟨stream, hstream⟩ := h.streams call hmem
  obtain ⟨s', hperform, hs'⟩ := perform_eq hlib hdom h.keeps h.stored (h.known call hmem) hd
    fun key hcall ↦ hcut key (hcall ▸ h.known call hmem)
  have hserve : (serve net.server (.stream d.pieces)).1 = some s' := by
    rw [perform_of_stream hstream, ← h.server] at hperform
    exact congrArg Prod.fst hperform
  -- handled first or after the calls it overtakes, it leaves the same entries
  obtain ⟨hovertake, -⟩ := Lru.run_overtake (hmay s c h.server h.keeps)
  rw [h.limit] at hovertake
  refine ⟨s', h.program, hserve, hs', h.limit, h.stored.step (h.known call hmem),
    fun call' hcall' ↦ h.streams call' (hsub call' hcall'), h.sent,
    fun call' hcall' ↦ h.known call' (hsub call' hcall'), ?_, h.answers, h.reply⟩
  have hentries := h.entries
  rw [hinFlight, Lru.run_append, Lru.run_cons] at hentries
  rw [Server.Contents.apply, h.limit, Lru.run_append, hovertake]
  exact hentries

theorem handleDatagram (hlib : lib.Conforming) (hdom : InDomain calls) {message : Bytes}
    (hasked : net.waiting = .request key) (hmay : Harmless net.server net.inFlight (.get key))
    (hmem : .get key ∈ calls)
    (hreply : (serve net.server (.datagram (getRequest key))).2 = some message) :
    ∃ s', Net.Tracks lib calls program c₀
      { net with
        waiting := .reply key message
        server := (serve net.server (.datagram (getRequest key))).1 } returned s'
      (c.apply (.get key)) := by
  have hsent := h.sent key hasked
  have hcomplete : ∀ buffer, (⟨[], buffer⟩ : Delivery).Complete (.get key) := by
    refine fun buffer ↦ ⟨fun _ hstream ↦ by simp [streamOfCall] at hstream, fun key' hget ↦ ?_⟩
    exact Lru.Call.get.inj hget ▸ hsent
  -- the reply does not depend on the buffer it is received into
  have hperform : ∀ buffer, ∃ s',
      perform lib (some s) ⟨[], buffer⟩ (.get key) = (some s', some (Answer.ofReply
        (Lru.step (Lru.word Value.size c.limit) c.entries (.get key)).2)) ∧
      Server.Keeps s'.port (some (c.apply (.get key))) := fun buffer ↦
    perform_eq hlib hdom h.keeps h.stored hmem (hcomplete buffer) (by simp)
  obtain ⟨s', hfilled, hs'⟩ := hperform (Server.filled 0)
  have hserve : (serve net.server (.datagram (getRequest key))).1 = some s' := by
    rw [perform_get_eq lib (some s) _ hsent, ← h.server] at hfilled
    exact congrArg Prod.fst hfilled
  obtain ⟨hovertake, hanswer⟩ := Lru.run_overtake (hmay s c h.server h.keeps)
  have hentries := h.entries
  simp only [hasked, Waiting.handled, List.append_nil] at hentries
  rw [h.limit, hentries] at hovertake hanswer
  refine ⟨s', ?_, hserve, hs', h.limit, h.stored.step hmem, h.streams, by simp, h.known, ?_,
    h.answers, ?_⟩
  · have hprogram := h.program
    rwa [hasked] at hprogram
  · rw [Server.Contents.apply, h.limit, hovertake]
    exact (congrArg Prod.fst (Lru.run_concat ..)).symm
  · intro key' message' hreplied buffer
    obtain ⟨rfl, rfl⟩ := Waiting.reply.inj hreplied
    obtain ⟨_, hbuffer, -⟩ := hperform buffer
    have hdecoded : (serve net.server (.datagram (getRequest key))).2.bind
        (receiveAnswer lib key buffer) = some (Answer.ofReply
          (Lru.step (Lru.word Value.size c.limit) c.entries (.get key)).2) := by
      rw [perform_get_eq lib (some s) _ hsent, ← h.server] at hbuffer
      exact congrArg Prod.snd hbuffer
    rw [hreply, Option.bind_some] at hdecoded
    rw [← hanswer, ← h.limit, hdecoded]

theorem receive {message : Bytes} (hreplied : net.waiting = .reply key message)
    (buffer : BufArr) :
    Net.Tracks lib calls program c₀
      { net with
        waiting := .nothing
        answers := net.answers ++ [receiveAnswer lib key buffer message] }
      (returned ++ [.get key]) s c where
  program := by
    have hprogram := h.program
    rw [hreplied] at hprogram
    simpa [Waiting.call] using hprogram
  server := h.server
  keeps := h.keeps
  limit := h.limit
  stored := h.stored
  streams := h.streams
  sent := by simp
  known := h.known
  entries := by
    have hentries := h.entries
    rw [hreplied] at hentries
    simpa [Waiting.handled] using hentries
  answers := by
    rw [Lru.run_concat, List.map_append, ← h.answers, h.reply key message hreplied buffer]
    rfl
  reply := by simp

end Net.Tracks

theorem cacheSet_ne_none (hdom : InDomain calls) {v : Value} (hmem : .set key v ∈ calls) :
    cacheSet key v ≠ none := by
  obtain ⟨t, -, hv⟩ := hdom.value key v hmem
  have hfits := hdom.fits _ hmem key v hmem t hv
  have hsize : v.size.toNat = t.length + 1 := by
    rw [Value.toNat_size, hv, List.length_append, List.length_singleton]
  rw [cacheSet, if_neg (by omega)]
  exact Option.some_ne_none _

/-- **One step** of a network that lets only independent requests overtake. -/
theorem Step.tracks (hlib : lib.Conforming) (hdom : InDomain calls)
    (hcut : ∀ key, .delete key ∈ calls → ¬ CutOff key) (hprogram : ∀ call ∈ program, call ∈ calls)
    (h : net.Tracks lib calls program c₀ returned s c) (hstep : Step lib Harmless net net') :
    ∃ returned' s' c', net'.Tracks lib calls program c₀ returned' s' c' := by
  have htodo' : ∀ call ∈ net.todo, call ∈ calls := fun call hcall ↦
    hprogram call (by rw [h.program]; exact List.mem_append_right _ hcall)
  have hcall' : ∀ call ∈ net.waiting.call, call ∈ calls := fun call hcall ↦
    hprogram call (by
      rw [h.program]
      exact List.mem_append_left _ (List.mem_append_right _ hcall))
  cases hstep with
  | send hidle hserver htodo hstream =>
    exact ⟨_, _, _, h.send hidle htodo hstream (htodo' _ (by simp [htodo]))⟩
  | skip hidle htodo hnone =>
    exact absurd hnone (cacheSet_ne_none hdom (htodo' _ (by simp [htodo])))
  | ask hidle htodo hsent => exact ⟨_, _, _, h.ask hidle htodo hsent⟩
  | handleStream hinFlight hd hmay =>
    obtain ⟨s', hs'⟩ := h.handleStream hlib hdom hcut hinFlight hd hmay
    exact ⟨_, _, _, hs'⟩
  | handleDatagram hasked hmay hreply =>
    obtain ⟨s', hs'⟩ := h.handleDatagram hlib hdom hasked hmay
      (hcall' _ (by simp [hasked, Waiting.call])) hreply
    exact ⟨_, _, _, hs'⟩
  | receive buffer hreplied hsent => exact ⟨_, _, _, h.receive hreplied _⟩

theorem Net.tracks_start (hs : Server.Keeps s.port (some c₀)) (hst : StoredBy calls c₀.entries) :
    (Net.start s program).Tracks lib calls program c₀ [] s c₀ where
  program := rfl
  server := rfl
  keeps := hs
  limit := rfl
  stored := hst
  streams := by simp [start]
  sent := by simp [start]
  known := by simp [start]
  entries := rfl
  answers := rfl
  reply := by simp [start]

/-- **A whole run** keeps the invariant. -/
theorem Reaches.tracks (hlib : lib.Conforming) (hdom : InDomain calls)
    (hcut : ∀ key, .delete key ∈ calls → ¬ CutOff key) (hprogram : ∀ call ∈ program, call ∈ calls)
    (hs : Server.Keeps s.port (some c₀)) (hst : StoredBy calls c₀.entries)
    (hreaches : Reaches lib Harmless (Net.start s program) net) :
    ∃ returned s' c, net.Tracks lib calls program c₀ returned s' c := by
  induction hreaches with
  | refl => exact ⟨_, _, _, Net.tracks_start hs hst⟩
  | tail _ hstep ih =>
    obtain ⟨returned, s', c, h⟩ := ih
    exact hstep.tracks hlib hdom hcut hprogram h

theorem forall₂_agrees_ofReply {C : Lru.Capacity CStr Value} {l : List (CStr × Value)}
    (hdom : InDomain calls) (hst : StoredBy calls l) {made : List (Lru.Call CStr Value)}
    (hmade : ∀ call ∈ made, call ∈ calls) :
    List.Forall₂ Agrees ((Lru.run C l made).2.map (some ∘ Answer.ofReply))
      ((Lru.run C l made).2.map CacheObj.Answer.ofReply) := by
  induction made generalizing l with
  | nil => exact List.Forall₂.nil
  | cons call made ih =>
    rw [Lru.run_cons, List.map_cons, List.map_cons]
    refine List.Forall₂.cons (agrees_ofReply fun v hv ↦ ?_)
      (ih (hst.step (hmade call List.mem_cons_self))
        fun call' hcall' ↦ hmade call' (List.mem_cons_of_mem _ hcall'))
    obtain ⟨key, hfind⟩ := Lru.find_of_hit hv
    exact hdom.value _ _ (hst _ (Lru.mem_of_find hfind))

section Samples

/-- A program whose `cache_get` is made while the stream of its `cache_delete` is in flight. -/
def overtakingProgram (key : CStr) : List (Lru.Call CStr Value) :=
  [.set CacheObj.aKey hiText, .delete key, .get CacheObj.aKey]

theorem inDomain_overtakingProgram (hkey : Server.PlainKey key) (hlen : key.bytes.length = 1) :
    InDomain (overtakingProgram key) := by
  refine inDomain_of_hiText ?_ (by simp [overtakingProgram])
  have hlen' : CacheObj.aKey.bytes.length = 1 := rfl
  simp [overtakingProgram, Lru.Call.key, plainKey_aKey, hkey, hlen, hlen']

theorem reaches_overtakingProgram
    {May : Option Server.State → List (Lru.Call CStr Value) → Lru.Call CStr Value → Prop}
    (hmay : ∀ server call, May server [] call)
    (hget : ∀ server, May server [.delete key] (.get CacheObj.aKey))
    (hkey : Server.PlainKey key) (hlen : key.bytes.length = 1) : ∃ server,
    Reaches plainJson May (Net.start (Server.start 100 (Server.filled 0)) (overtakingProgram key))
      ⟨[], [], .nothing, server,
        [some .void, some .void, some (Answer.ofReply (.hit hiText))]⟩ := by
  have hdom := inDomain_overtakingProgram hkey hlen
  have hs : Server.Keeps (Server.start 100 (Server.filled 0)).port (some ⟨100, []⟩) :=
    Server.keeps_createCache _
  obtain ⟨s₁, hset, hs₁⟩ := perform_eq conforming_plainJson hdom hs (by simp [StoredBy])
    (List.mem_cons_self : .set CacheObj.aKey hiText ∈ overtakingProgram key)
    (complete_whole (by simp)) (by simp)
  have hst₁ : StoredBy (overtakingProgram key)
      ((⟨100, []⟩ : Server.Contents).apply (.set CacheObj.aKey hiText)).entries :=
    StoredBy.step (by simp [StoredBy]) List.mem_cons_self
  have hlen' : CacheObj.aKey.bytes.length = 1 := rfl
  have hget' : (whole (.get CacheObj.aKey)).Complete (.get CacheObj.aKey) :=
    complete_whole fun k hk ↦ by
      obtain rfl := Lru.Call.get.inj hk
      omega
  obtain ⟨s₂, hgot, hs₂⟩ := perform_eq conforming_plainJson hdom hs₁ hst₁
    (by simp [overtakingProgram] : .get CacheObj.aKey ∈ overtakingProgram key)
    hget' (by simp)
  rw [Lru.step_get, Server.Contents.apply, Lru.step, Lru.find_put_self (by decide)] at hgot
  refine ⟨_, (reaches_perform hmay (complete_whole (by simp)) hset _ []).trans
    (reaches_overtaking hmay (hget _) (complete_whole (by simp)) hget' hgot [] [some .void])⟩

end Samples

/-- **Program order**, while every request that overtakes older ones is independent of them. -/
theorem inProgramOrder_of_harmless (hlib : lib.Conforming) (hdom : InDomain calls)
    (hcut : ∀ key, .delete key ∈ calls → ¬ CutOff key) (hprogram : ∀ call ∈ program, call ∈ calls)
    {cache₀ : CacheObj} (hport : s.port = some cache₀) (hs : Server.Keeps s.port (some c₀))
    (hst : StoredBy calls c₀.entries)
    (hreaches : Reaches lib Harmless (Net.start s program) net) :
    net.InProgramOrder cache₀ program := by
  obtain ⟨returned, s', c, h⟩ := Reaches.tracks hlib hdom hcut hprogram hs hst hreaches
  obtain ⟨cache', l, hport', hr, hl⟩ := hs
  obtain rfl := Option.some.inj (hport.symm.trans hport')
  refine ⟨returned, h.program, ?_, fun hempty hhandled ↦ ?_⟩
  · obtain ⟨cache, l', hrun, -, -⟩ := hr.run returned
    refine ⟨cache, _, hrun, ?_⟩
    rw [hl, h.answers]
    refine forall₂_agrees_ofReply hdom hst fun call hcall ↦ hprogram call ?_
    rw [h.program]
    exact List.mem_append_left _ (List.mem_append_left _ hcall)
  · obtain ⟨cache', l', hrun, hr', hl'⟩ := hr.run (returned ++ net.waiting.call)
    obtain ⟨cache, l'', hcache, hr'', hl''⟩ := h.keeps
    refine ⟨s', cache, cache', _, h.server, hcache, hrun, hr''.sameView hr' ?_⟩
    have hentries := h.entries
    rw [hempty, hhandled, Lru.run_nil] at hentries
    rw [hl'', hl', hl]
    exact hentries

/-- A `cache_get` may overtake the `cache_delete` of another key. -/
theorem inProgramOrder_of_harmless_example : ∃ net,
    Reaches plainJson Harmless
        (Net.start (Server.start 100 (Server.filled 0)) (overtakingProgram CacheObj.bKey)) net ∧
      net.todo = [] ∧ net.inFlight = [] ∧
      net.InProgramOrder (CacheObj.createCache 100 none) (overtakingProgram CacheObj.bKey) := by
  have hkey : Server.PlainKey CacheObj.bKey := ⟨⟨by decide, by decide⟩, by decide⟩
  have hmay : ∀ server call, Harmless server [] call := fun _ _ _ _ _ _ ↦ trivial
  have hget : ∀ server, Harmless server [.delete CacheObj.bKey] (.get CacheObj.aKey) :=
    fun _ _ _ _ _ ↦ ⟨fun h ↦ absurd h (by decide), trivial⟩
  obtain ⟨server, hreaches⟩ := reaches_overtakingProgram hmay hget hkey rfl
  refine ⟨_, hreaches, rfl, rfl, ?_⟩
  refine inProgramOrder_of_harmless conforming_plainJson (inDomain_overtakingProgram hkey rfl) ?_
    (fun _ hcall ↦ hcall) rfl (Server.keeps_createCache 100) (by simp [StoredBy]) hreaches
  intro key hmem
  obtain rfl : key = CacheObj.bKey := by simpa [overtakingProgram] using hmem
  decide

/-- A `cache_get` that overtakes the `cache_delete` of its own key finds the deleted value. -/
theorem overtaken_delete_not_inProgramOrder :
    InDomain (overtakingProgram CacheObj.aKey) ∧ ∃ net,
      Reaches plainJson AnyOrder
          (Net.start (Server.start 100 (Server.filled 0)) (overtakingProgram CacheObj.aKey)) net ∧
        net.todo = [] ∧ net.inFlight = [] ∧
        net.answers = [some .void, some .void, some (Answer.ofReply (.hit hiText))] ∧
        ¬ net.InProgramOrder (CacheObj.createCache 100 none)
          (overtakingProgram CacheObj.aKey) := by
  refine ⟨inDomain_overtakingProgram plainKey_aKey rfl, ?_⟩
  have hmay : ∀ server call, AnyOrder server [] call := fun _ _ ↦ trivial
  obtain ⟨server, hreaches⟩ := reaches_overtakingProgram hmay (fun _ ↦ trivial) plainKey_aKey rfl
  refine ⟨_, hreaches, rfl, rfl, rfl, ?_⟩
  rintro ⟨returned, hprogram, ⟨cache, answers, hrun, hagrees⟩, -⟩
  obtain rfl : overtakingProgram CacheObj.aKey = returned := by
    simpa [Waiting.call] using hprogram
  obtain ⟨cache', l, hrun', -, -⟩ :=
    (CacheObj.rep_createCache 100 none).run (overtakingProgram CacheObj.aKey)
  obtain ⟨-, rfl⟩ := Prod.mk.inj (Option.some.inj (hrun.symm.trans hrun'))
  have hanswers : (Lru.run (Lru.word Value.size 100) (([] : List Entry).map Entry.kv)
      (overtakingProgram CacheObj.aKey)).2.map CacheObj.Answer.ofReply
        = [.void, .void, .value none 0] := rfl
  rw [hanswers] at hagrees
  simp [Agrees, Answer.ofReply] at hagrees

end Client

end NetCache
