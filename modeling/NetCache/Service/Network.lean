import Mathlib.Algebra.Order.Ring.Nat
import Mathlib.Data.List.Induction
import Mathlib.Logic.Function.Basic
import Mathlib.Logic.Relation

/-!
# Clients of a service

Any number of clients use one service over a network. A client posts updates, each over a connection
of its own, and does not wait; it sends queries in datagrams, and waits for the reply.

* A post is handed to the service at most once, at any time and in any order.
* A query is a datagram, and so is a reply. The network loses, repeats and reorders those that are
  on their way; what it has lost does not come back, and nobody sends it again.
* A reply is sent to the socket that its query came from. The port of a socket may be given out
  again, so the replies that may arrive in a socket are a parameter.

## What is assumed of the service

A service is a relation, as the handling of a request may have more than one outcome. It refines a
sequential specification on a domain of requests (`Refines`), and the clients keep to that domain.
Nothing else of the service is used, in particular not what its states are.

## The history

The history is the order in which the service has handled requests. `Reaches.serialised` is the main
result: the history explains all that clients see, and it respects real time. A reply carries its
place in the history, and a query the number of requests that had been handled when it was sent;
both are there for the proofs, and no step looks at them.

## Waiting

Some states cannot be left. A client with neither its query nor a reply on the way waits for ever,
and so does one whose query is on its way to a service that is gone (`Reaches.stuck`).
-/

namespace NetCache

namespace Service

/-- A request. -/
inductive Request (P Q : Type*)
  /-- An update that is not answered. -/
  | post (p : P)
  /-- A query that is answered. -/
  | query (q : Q)

/-- A service: what the handling of a request may lead to. -/
structure Handler (σ P Q R : Type*) where
  /-- The states after a post. -/
  post : σ → P → σ → Prop
  /-- The states after a query, with its reply. -/
  query : σ → Q → σ → R → Prop

/-! ## Sequential specifications -/

/-- A sequential specification: what a request does when it is handled alone. -/
structure Spec (τ P Q V : Type*) where
  /-- The state after a post. -/
  post : τ → P → τ
  /-- The state after a query, and its result. -/
  query : τ → Q → τ × V

variable {ι σ τ P Q R V A : Type*}

/-- The state after a request. -/
def Spec.next (T : Spec τ P Q V) (t : τ) : Request P Q → τ
  | .post p => T.post t p
  | .query q => (T.query t q).1

/-- The state after a history. -/
def Spec.run (T : Spec τ P Q V) (t : τ) (history : List (Request P Q)) : τ :=
  history.foldl T.next t

@[simp] theorem Spec.run_nil (T : Spec τ P Q V) (t : τ) : T.run t [] = t := rfl

theorem Spec.run_append (T : Spec τ P Q V) (t : τ) (history later : List (Request P Q)) :
    T.run t (history ++ later) = T.run (T.run t history) later := List.foldl_append

theorem Spec.run_concat (T : Spec τ P Q V) (t : τ) (history : List (Request P Q))
    (r : Request P Q) : T.run t (history ++ [r]) = T.next (T.run t history) r :=
  T.run_append t history [r]

/-- **Invariants of histories**: what holds of the first state, and is kept by one more request,
holds of every history and the state after it. -/
theorem Spec.run_induction (T : Spec τ P Q V) {I : List (Request P Q) → τ → Prop} {t : τ}
    (hstart : I [] t) (hnext : ∀ history t r, I history t → I (history ++ [r]) (T.next t r))
    (history : List (Request P Q)) : I history (T.run t history) := by
  induction history using List.reverseRecOn with
  | nil => exact hstart
  | append_singleton history r ih =>
    rw [T.run_concat]
    exact hnext history _ r ih

/-- **Refinement.** On requests in the domain `D`, a service in a state related to one of the
specification does what the specification does, and `Out` relates its reply to the result. -/
structure Refines (S : Handler σ P Q R) (T : Spec τ P Q V) (Rel : σ → τ → Prop)
    (D : Request P Q → Prop) (Out : Q → R → V → Prop) : Prop where
  /-- Posts. -/
  post : ∀ {s s' : σ} {t : τ} {p : P}, Rel s t → D (.post p) → S.post s p s' →
    Rel s' (T.post t p)
  /-- Queries. -/
  query : ∀ {s s' : σ} {t : τ} {q : Q} {r : R}, Rel s t → D (.query q) → S.query s q s' r →
    Rel s' (T.query t q).1 ∧ Out q r (T.query t q).2

/-! ## The network

Losing, repeating and reordering are one step: what is on its way afterwards is among what was on
its way before, in any number and order. -/

/-- A query that was sent; the socket it was sent from is its place among those that were sent. -/
structure Asked (Q : Type*) where
  /-- The query. -/
  query : Q
  /-- How many requests had been handled by then. -/
  since : ℕ

/-- A reply. -/
structure Reply (R : Type*) where
  /-- The socket of the query. -/
  socket : ℕ
  /-- The place of the query in the history. -/
  place : ℕ
  /-- What is replied. -/
  content : R

/-- What a client has been told. -/
structure Returned (A : Type*) where
  /-- The socket of the query. -/
  socket : ℕ
  /-- How many requests had been handled by then. -/
  before : ℕ
  /-- What the client makes of the reply. -/
  answer : A

/-- The clients, the network and the service. -/
structure Net (ι σ P Q R A : Type*) where
  /-- The service. -/
  service : σ
  /-- The posts that were sent. -/
  sent : List P
  /-- Those that are not handled yet. -/
  posts : List P
  /-- The queries that were sent. -/
  asked : List (Asked Q)
  /-- The sockets of the queries that are on their way. -/
  queries : List ℕ
  /-- The replies that are on their way. -/
  replies : List (Reply R)
  /-- The socket that a client waits at. -/
  waiting : ι → Option ℕ
  /-- What the queries of a client have returned. -/
  returned : ι → List (Returned A)
  /-- The requests that were handled, oldest first. -/
  history : List (Request P Q)

/-- Nothing has been sent yet. -/
def Net.start (s : σ) : Net ι σ P Q R A where
  service := s
  sent := []
  posts := []
  asked := []
  queries := []
  replies := []
  waiting _ := none
  returned _ := []
  history := []

section Steps

variable [DecidableEq ι] (S : Handler σ P Q R) (D : Request P Q → Prop) (Port : ℕ → ℕ → Prop)
  (Reads : Q → R → A → Prop)

/-- One step. The clients keep to the domain `D`; `Port m n` says that a reply to socket `m` may
arrive in socket `n`, and `Reads` what a client may make of a reply. -/
inductive Step : Net ι σ P Q R A → Net ι σ P Q R A → Prop
  /-- A client posts. -/
  | post {net : Net ι σ P Q R A} (i : ι) {p : P} (hidle : net.waiting i = none)
      (hdom : D (.post p)) :
      Step net { net with sent := net.sent ++ [p], posts := net.posts ++ [p] }
  /-- A client asks, from a socket of its own. -/
  | ask {net : Net ι σ P Q R A} (i : ι) {q : Q} (hidle : net.waiting i = none)
      (hdom : D (.query q)) :
      Step net { net with
        asked := net.asked ++ [⟨q, net.history.length⟩]
        queries := net.queries ++ [net.asked.length]
        waiting := Function.update net.waiting i (some net.asked.length) }
  /-- The network loses, repeats and reorders datagrams. -/
  | datagrams {net : Net ι σ P Q R A} {queries : List ℕ} {replies : List (Reply R)}
      (hqueries : queries ⊆ net.queries) (hreplies : replies ⊆ net.replies) :
      Step net { net with queries := queries, replies := replies }
  /-- The service handles a post. -/
  | handlePost {net : Net ι σ P Q R A} {p : P} {older newer : List P} {s : σ}
      (hposts : net.posts = older ++ p :: newer) (hpost : S.post net.service p s) :
      Step net { net with
        service := s
        posts := older ++ newer
        history := net.history ++ [.post p] }
  /-- The service handles a query. -/
  | handleQuery {net : Net ι σ P Q R A} {n : ℕ} {older newer : List ℕ} {a : Asked Q} {s : σ}
      {r : R} (hqueries : net.queries = older ++ n :: newer) (hasked : net.asked[n]? = some a)
      (hquery : S.query net.service a.query s r) :
      Step net { net with
        service := s
        queries := older ++ newer
        replies := net.replies ++ [⟨n, net.history.length, r⟩]
        history := net.history ++ [.query a.query] }
  /-- A client receives a reply. -/
  | receive {net : Net ι σ P Q R A} {i : ι} {n : ℕ} {a : Asked Q} {reply : Reply R}
      {older newer : List (Reply R)} {x : A} (hwaiting : net.waiting i = some n)
      (hasked : net.asked[n]? = some a) (hreplies : net.replies = older ++ reply :: newer)
      (hport : Port reply.socket n) (hreads : Reads a.query reply.content x) :
      Step net { net with
        replies := older ++ newer
        waiting := Function.update net.waiting i none
        returned := Function.update net.returned i
          (net.returned i ++ [⟨n, net.history.length, x⟩]) }

/-- The states the network reaches. -/
abbrev Reaches : Net ι σ P Q R A → Net ι σ P Q R A → Prop :=
  Relation.ReflTransGen (Step S D Port Reads)

end Steps

/-! ## What the history explains

The invariant has one clause for each kind of thing in the network, and one lemma for each kind
of step. Histories only grow, so what was explained stays explained (`Net.Explains.mono`). -/

/-- The posts of a history. -/
def posted (history : List (Request P Q)) : List P :=
  history.filterMap fun
    | .post p => some p
    | .query _ => none

theorem posted_concat_post (history : List (Request P Q)) (p : P) :
    posted (history ++ [.post p]) = posted history ++ [p] := List.filterMap_append ..

theorem posted_concat_query (history : List (Request P Q)) (q : Q) :
    posted (history ++ [.query q]) = posted history := by
  rw [posted, List.filterMap_append]
  exact List.append_nil _

theorem mem_posted {history : List (Request P Q)} {p : P} :
    p ∈ posted history ↔ .post p ∈ history := by
  rw [posted, List.mem_filterMap]
  constructor
  · rintro ⟨r, hr, hp⟩
    cases r with
    | post p' => exact Option.some.inj hp ▸ hr
    | query q => exact absurd hp (Option.some_ne_none p).symm
  · intro h
    exact ⟨_, h, rfl⟩

variable {S : Handler σ P Q R} {T : Spec τ P Q V} {t₀ : τ} {Rel : σ → τ → Prop}
  {D : Request P Q → Prop} {Out : Q → R → V → Prop} {Port : ℕ → ℕ → Prop}
  {Reads : Q → R → A → Prop} {net net' : Net ι σ P Q R A} {m k : ℕ} {r : R}

theorem getElem?_of_isPrefix {α : Type*} {l l' : List α} {a : α} (h : l <+: l')
    (hk : l[k]? = some a) : l'[k]? = some a := by
  obtain ⟨t, rfl⟩ := h
  rw [List.getElem?_append_left (List.getElem?_eq_some_iff.mp hk).1]
  exact hk

theorem mem_of_mem_remaining {α : Type*} {l before after : List α} {a b : α}
    (hl : l = before ++ a :: after) (hb : b ∈ before ++ after) : b ∈ l := by
  rw [hl]
  rcases List.mem_append.mp hb with hb | hb
  · exact List.mem_append_left _ hb
  · exact List.mem_append_right _ (List.mem_cons_of_mem a hb)

theorem getElem?_concat_eq_some_iff {α : Type*} {l : List α} {a b : α} :
    (l ++ [a])[k]? = some b ↔ l[k]? = some b ∨ k = l.length ∧ a = b := by
  rcases lt_trichotomy k l.length with hk | rfl | hk
  · simp [List.getElem?_append_left hk, hk.ne]
  · simp
  · have hlen : (l ++ [a]).length ≤ k := by simpa using Nat.succ_le_of_lt hk
    simp [List.getElem?_eq_none hlen, List.getElem?_eq_none hk.le, hk.ne']

/-- The query of socket `m` was handled at place `k` of the history, after it was sent, and its
reply is what the specification gives there. -/
def Net.Explains (net : Net ι σ P Q R A) (T : Spec τ P Q V) (t₀ : τ) (Out : Q → R → V → Prop)
    (m k : ℕ) (r : R) : Prop :=
  ∃ a, net.asked[m]? = some a ∧ a.since ≤ k ∧ net.history[k]? = some (.query a.query) ∧
    Out a.query r (T.query (T.run t₀ (net.history.take k)) a.query).2

theorem Net.Explains.mono (h : net.Explains T t₀ Out m k r) (hasked : net.asked <+: net'.asked)
    (hhistory : net.history <+: net'.history) : net'.Explains T t₀ Out m k r := by
  obtain ⟨a, ha, hsince, hk, hout⟩ := h
  have hlt : k < net.history.length := (List.getElem?_eq_some_iff.mp hk).1
  refine ⟨a, getElem?_of_isPrefix hasked ha, hsince, getElem?_of_isPrefix hhistory hk, ?_⟩
  obtain ⟨later, hlater⟩ := hhistory
  rw [← hlater, List.take_append_of_le_length (Nat.le_of_lt hlt)]
  exact hout

/-- **The history explains the run.** -/
structure Net.Serialised (net : Net ι σ P Q R A) (T : Spec τ P Q V) (t₀ : τ) (Rel : σ → τ → Prop)
    (D : Request P Q → Prop) (Out : Q → R → V → Prop) (Port : ℕ → ℕ → Prop)
    (Reads : Q → R → A → Prop) : Prop where
  /-- The service is where the specification is. -/
  state : Rel net.service (T.run t₀ net.history)
  /-- Every post is handled at most once, and nothing is handled that was not posted. -/
  updates : (posted net.history ++ net.posts).Perm net.sent
  /-- The posts are in the domain. -/
  sent_domain : ∀ p ∈ net.sent, D (.post p)
  /-- Every query that was handled was sent before. -/
  queries : ∀ k q, net.history[k]? = some (.query q) → ∃ a ∈ net.asked, a.query = q ∧ a.since ≤ k
  /-- The queries are in the domain, and they were sent in the past. -/
  asked_domain : ∀ a ∈ net.asked, D (.query a.query) ∧ a.since ≤ net.history.length
  /-- Every reply is explained. -/
  replies : ∀ reply ∈ net.replies, net.Explains T t₀ Out reply.socket reply.place reply.content
  /-- Every answer comes from a reply to a query that was handled before the answer. -/
  answers : ∀ i, ∀ x ∈ net.returned i, ∃ a m k r, net.asked[x.socket]? = some a ∧
    Port m x.socket ∧ k < x.before ∧ net.Explains T t₀ Out m k r ∧ Reads a.query r x.answer

namespace Net.Serialised

theorem start {s : σ} (h : Rel s t₀) :
    (Net.start s : Net ι σ P Q R A).Serialised T t₀ Rel D Out Port Reads where
  state := h
  updates := List.Perm.nil
  sent_domain := by simp [Net.start]
  queries k q hk := absurd hk (by simp [Net.start])
  asked_domain := by simp [Net.start]
  replies := by simp [Net.start]
  answers := by simp [Net.start]

variable (h : net.Serialised T t₀ Rel D Out Port Reads)
include h

theorem since_le {a : Asked Q} (ha : a ∈ net.asked) {history : List (Request P Q)}
    (hhistory : net.history <+: history) : a.since ≤ history.length :=
  (h.asked_domain a ha).2.trans hhistory.length_le

theorem history_domain : ∀ r ∈ net.history, D r := by
  intro r hr
  cases r with
  | post p =>
    exact h.sent_domain p (h.updates.subset (List.mem_append_left _ (mem_posted.mpr hr)))
  | query q =>
    obtain ⟨k, hk⟩ := List.mem_iff_getElem?.mp hr
    obtain ⟨a, ha, rfl, -⟩ := h.queries k q hk
    exact (h.asked_domain a ha).1

theorem post {p : P} (hdom : D (.post p)) : Net.Serialised
    { net with sent := net.sent ++ [p], posts := net.posts ++ [p] }
    T t₀ Rel D Out Port Reads where
  state := h.state
  updates := by
    rw [← List.append_assoc]
    exact h.updates.append_right [p]
  sent_domain p' hp' := by
    rcases List.mem_append.mp hp' with hp' | hp'
    · exact h.sent_domain p' hp'
    · exact List.mem_singleton.mp hp' ▸ hdom
  queries := h.queries
  asked_domain := h.asked_domain
  replies := h.replies
  answers := h.answers

theorem ask (queries : List ℕ) (waiting : ι → Option ℕ) {q : Q} (hdom : D (.query q)) :
    Net.Serialised
    { net with
      asked := net.asked ++ [⟨q, net.history.length⟩]
      queries := queries
      waiting := waiting }
    T t₀ Rel D Out Port Reads where
  state := h.state
  updates := h.updates
  sent_domain := h.sent_domain
  queries k q' hk := by
    obtain ⟨a, ha, hquery⟩ := h.queries k q' hk
    exact ⟨a, List.mem_append_left _ ha, hquery⟩
  asked_domain a ha := by
    rcases List.mem_append.mp ha with ha | ha
    · exact h.asked_domain a ha
    · obtain rfl := List.mem_singleton.mp ha
      exact ⟨hdom, le_rfl⟩
  replies reply hreply :=
    (h.replies reply hreply).mono (List.prefix_append ..) (List.prefix_refl _)
  answers j x hx := by
    obtain ⟨a, m, k, r, ha, hport, hlt, hexp, hreads⟩ := h.answers j x hx
    exact ⟨a, m, k, r, getElem?_of_isPrefix (List.prefix_append ..) ha, hport, hlt,
      hexp.mono (List.prefix_append ..) (List.prefix_refl _), hreads⟩

theorem datagrams (queries : List ℕ) {replies : List (Reply R)} (hreplies : replies ⊆ net.replies) :
    Net.Serialised { net with queries := queries, replies := replies }
      T t₀ Rel D Out Port Reads where
  state := h.state
  updates := h.updates
  sent_domain := h.sent_domain
  queries := h.queries
  asked_domain := h.asked_domain
  replies reply hreply := h.replies reply (hreplies hreply)
  answers := h.answers

theorem handlePost (href : Refines S T Rel D Out) {p : P} {older newer : List P} {s : σ}
    (hposts : net.posts = older ++ p :: newer) (hpost : S.post net.service p s) : Net.Serialised
    { net with
      service := s
      posts := older ++ newer
      history := net.history ++ [.post p] } T t₀ Rel D Out Port Reads where
  state := by
    have hp : p ∈ net.sent := h.updates.subset (List.mem_append_right _ (by simp [hposts]))
    rw [T.run_concat]
    exact href.post h.state (h.sent_domain p hp) hpost
  updates := by
    have hmiddle : (posted net.history ++ (older ++ p :: newer)).Perm
        (posted net.history ++ [p] ++ (older ++ newer)) := by
      rw [List.append_assoc]
      exact List.perm_middle.append_left _
    have hupdates := h.updates
    rw [hposts] at hupdates
    rw [posted_concat_post]
    exact hmiddle.symm.trans hupdates
  sent_domain := h.sent_domain
  queries k q hk := by
    rcases getElem?_concat_eq_some_iff.mp hk with hk | ⟨-, hq⟩
    · exact h.queries k q hk
    · cases hq
  asked_domain a ha := ⟨(h.asked_domain a ha).1, h.since_le ha (List.prefix_append ..)⟩
  replies reply hreply :=
    (h.replies reply hreply).mono (List.prefix_refl _) (List.prefix_append ..)
  answers j x hx := by
    obtain ⟨a, m, k, r, ha, hport, hlt, hexp, hreads⟩ := h.answers j x hx
    exact ⟨a, m, k, r, ha, hport, hlt, hexp.mono (List.prefix_refl _) (List.prefix_append ..),
      hreads⟩

theorem handleQuery (href : Refines S T Rel D Out) (queries : List ℕ) {n : ℕ} {a : Asked Q} {s : σ}
    {r : R} (hasked : net.asked[n]? = some a) (hquery : S.query net.service a.query s r) :
    Net.Serialised
    { net with
      service := s
      queries := queries
      replies := net.replies ++ [⟨n, net.history.length, r⟩]
      history := net.history ++ [.query a.query] } T t₀ Rel D Out Port Reads := by
  have hmem : a ∈ net.asked := List.mem_of_getElem? hasked
  obtain ⟨hdom, hsince⟩ := h.asked_domain a hmem
  obtain ⟨hstate, hout⟩ := href.query h.state hdom hquery
  refine ⟨?_, ?_, h.sent_domain, ?_, ?_, ?_, ?_⟩
  · rw [T.run_concat]
    exact hstate
  · rw [posted_concat_query]
    exact h.updates
  · intro k q hk
    rcases getElem?_concat_eq_some_iff.mp hk with hk | ⟨rfl, hq⟩
    · exact h.queries k q hk
    · exact ⟨a, hmem, Request.query.inj hq, hsince⟩
  · intro b hb
    exact ⟨(h.asked_domain b hb).1, h.since_le hb (List.prefix_append ..)⟩
  · intro reply hreply
    rcases List.mem_append.mp hreply with hreply | hreply
    · exact (h.replies reply hreply).mono (List.prefix_refl _) (List.prefix_append ..)
    · -- the new reply: its query is the last one of the history
      obtain rfl := List.mem_singleton.mp hreply
      refine ⟨a, hasked, hsince, List.getElem?_concat_length, ?_⟩
      rw [List.take_left]
      exact hout
  · intro j x hx
    obtain ⟨b, m, k, r, hb, hport, hlt, hexp, hreads⟩ := h.answers j x hx
    exact ⟨b, m, k, r, hb, hport, hlt, hexp.mono (List.prefix_refl _) (List.prefix_append ..),
      hreads⟩

theorem receive [DecidableEq ι] (waiting : ι → Option ℕ) {i : ι} {n : ℕ} {a : Asked Q}
    {reply : Reply R} {older newer : List (Reply R)} {x : A} (hasked : net.asked[n]? = some a)
    (hreplies : net.replies = older ++ reply :: newer) (hport : Port reply.socket n)
    (hreads : Reads a.query reply.content x) : Net.Serialised
    { net with
      replies := older ++ newer
      waiting := waiting
      returned := Function.update net.returned i (net.returned i ++ [⟨n, net.history.length, x⟩]) }
    T t₀ Rel D Out Port Reads where
  state := h.state
  updates := h.updates
  sent_domain := h.sent_domain
  queries := h.queries
  asked_domain := h.asked_domain
  replies other hother := h.replies other (mem_of_mem_remaining hreplies hother)
  answers j y hy := by
    replace hy : y ∈ Function.update net.returned i
      (net.returned i ++ [⟨n, net.history.length, x⟩]) j := hy
    by_cases hj : j = i
    · subst hj
      rw [Function.update_self, List.mem_append, List.mem_singleton] at hy
      rcases hy with hy | rfl
      · exact h.answers j y hy
      · have hexp := h.replies reply (by simp [hreplies])
        obtain ⟨b, -, -, hplace, -⟩ := id hexp
        exact ⟨a, reply.socket, reply.place, reply.content, hasked, hport,
          (List.getElem?_eq_some_iff.mp hplace).1, hexp, hreads⟩
    · rw [Function.update_of_ne hj] at hy
      exact h.answers j y hy

end Net.Serialised

/-- **One step** keeps the history an explanation. -/
theorem Step.serialised [DecidableEq ι] (href : Refines S T Rel D Out)
    (h : net.Serialised T t₀ Rel D Out Port Reads) (hstep : Step S D Port Reads net net') :
    net'.Serialised T t₀ Rel D Out Port Reads := by
  cases hstep with
  | post i hidle hdom => exact h.post hdom
  | ask i hidle hdom => exact h.ask _ _ hdom
  | datagrams _ hreplies => exact h.datagrams _ hreplies
  | handlePost hposts hpost => exact h.handlePost href hposts hpost
  | handleQuery _ hasked hquery => exact h.handleQuery href _ hasked hquery
  | receive _ hasked hreplies hport hreads => exact h.receive _ hasked hreplies hport hreads

/-- **A whole run**: the history explains it. -/
theorem Reaches.serialised [DecidableEq ι] (href : Refines S T Rel D Out) {s : σ} (hs : Rel s t₀)
    (hreaches : Reaches S D Port Reads (Net.start s) net) :
    net.Serialised T t₀ Rel D Out Port Reads := by
  induction hreaches with
  | refl => exact .start hs
  | tail _ hstep ih => exact hstep.serialised href ih

/-! ## Waiting

Nothing sends a query again, and the network brings nothing back that it has lost. A client whose
query and whose reply are both lost waits for ever, and so does one whose query is on its way to a
service that is gone.
-/

theorem Reaches.exists_asked [DecidableEq ι] {s : σ} {i : ι} {n : ℕ}
    (hreaches : Reaches S D Port Reads (Net.start s) net) (hwaiting : net.waiting i = some n) :
    ∃ a, net.asked[n]? = some a := by
  induction hreaches with
  | refl => cases hwaiting
  | @tail net _ _ hstep ih =>
    cases hstep with
    | post _ _ _ => exact ih hwaiting
    | ask j _ _ =>
      by_cases hij : i = j
      · subst hij
        have hself : Function.update net.waiting i (some net.asked.length) i = some n := hwaiting
        rw [Function.update_self] at hself
        obtain rfl := Option.some.inj hself
        exact ⟨_, List.getElem?_concat_length⟩
      · obtain ⟨a, ha⟩ := ih ((Function.update_of_ne hij ..).symm.trans hwaiting)
        exact ⟨a, getElem?_of_isPrefix (List.prefix_append ..) ha⟩
    | datagrams _ _ => exact ih hwaiting
    | handlePost _ _ => exact ih hwaiting
    | handleQuery _ _ _ => exact ih hwaiting
    | @receive j _ _ _ _ _ _ _ _ _ _ _ =>
      by_cases hij : i = j
      · subst hij
        exact absurd ((Function.update_self ..).symm.trans hwaiting) (by simp)
      · exact ih ((Function.update_of_ne hij ..).symm.trans hwaiting)

/-- A service that handles nothing any more. -/
structure Handler.Gone (S : Handler σ P Q R) (s : σ) : Prop where
  /-- No posts. -/
  post : ∀ p s', ¬ S.post s p s'
  /-- No queries. -/
  query : ∀ q s' r, ¬ S.query s q s' r

/-- A client waits at socket `n`, and neither a query that the service can handle nor a reply is on
its way. -/
structure Net.Stuck (net : Net ι σ P Q R A) (S : Handler σ P Q R) (i : ι) (n : ℕ) : Prop where
  /-- The client waits. -/
  waiting : net.waiting i = some n
  /-- Its query was sent. -/
  asked : n < net.asked.length
  /-- The service is gone, or the query is lost or used up. -/
  unhandled : S.Gone net.service ∨ n ∉ net.queries
  /-- No reply is on its way. -/
  unreplied : ∀ reply ∈ net.replies, reply.socket ≠ n

/-- **One step** leaves a stuck client stuck, where replies arrive only in the socket they were sent
to. -/
theorem Step.stuck [DecidableEq ι] {i : ι} {n : ℕ} (h : net.Stuck S i n)
    (hstep : Step S D Eq Reads net net') : net'.Stuck S i n := by
  cases hstep with
  | post _ _ _ => exact ⟨h.waiting, h.asked, h.unhandled, h.unreplied⟩
  | ask j hidle _ =>
    have hij : i ≠ j := by
      rintro rfl
      exact absurd (hidle.symm.trans h.waiting) (by simp)
    refine ⟨(Function.update_of_ne hij ..).trans h.waiting, ?_, h.unhandled.imp_right ?_,
      h.unreplied⟩
    · rw [List.length_append]
      exact h.asked.trans_le (Nat.le_add_right ..)
    · -- the new query comes from another socket
      rw [List.mem_append, List.mem_singleton, not_or]
      exact fun hqueries ↦ ⟨hqueries, h.asked.ne⟩
  | datagrams hqueries hreplies =>
    exact ⟨h.waiting, h.asked, h.unhandled.imp_right fun hlost hmem ↦ hlost (hqueries hmem),
      fun reply hreply ↦ h.unreplied reply (hreplies hreply)⟩
  | handlePost _ hpost =>
    refine ⟨h.waiting, h.asked, Or.inr ?_, h.unreplied⟩
    exact h.unhandled.resolve_left fun hgone ↦ hgone.post _ _ hpost
  | handleQuery hqueries _ hquery =>
    have hlost := h.unhandled.resolve_left fun hgone ↦ hgone.query _ _ _ hquery
    refine ⟨h.waiting, h.asked, Or.inr fun hmem ↦ hlost (mem_of_mem_remaining hqueries hmem), ?_⟩
    intro reply hreply
    rcases List.mem_append.mp hreply with hreply | hreply
    · exact h.unreplied reply hreply
    · -- the new reply answers another query
      obtain rfl := List.mem_singleton.mp hreply
      rintro rfl
      exact hlost (by simp [hqueries])
  | @receive j m _ reply _ _ _ hat _ hreplies hport _ =>
    have hij : i ≠ j := by
      rintro rfl
      obtain rfl := Option.some.inj (h.waiting.symm.trans hat)
      exact h.unreplied reply (by simp [hreplies]) hport
    exact ⟨(Function.update_of_ne hij ..).trans h.waiting, h.asked, h.unhandled,
      fun other hother ↦ h.unreplied other (mem_of_mem_remaining hreplies hother)⟩

/-- **Waiting for ever.** A stuck client is never answered. -/
theorem Reaches.stuck [DecidableEq ι] {i : ι} {n : ℕ} (h : net.Stuck S i n)
    (hreaches : Reaches S D Eq Reads net net') : net'.Stuck S i n := by
  induction hreaches with
  | refl => exact h
  | tail _ hstep ih => exact hstep.stuck ih

end Service

end NetCache
