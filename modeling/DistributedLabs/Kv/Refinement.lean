import DistributedLabs.Kv.Client

/-!
A client that makes one call after the other sees a single map with expiring entries. The
abstract side is a list of completed calls and the last write to a key in it; the concrete
side is an entry for the key on every node of its shard. A write reaches the replicas at
different times, so that the entry of each carries some time at which the write ran.
-/

namespace KvLab

open GoTime

/-- What a `Set` left, and the times between which it ran. -/
structure Stored where
  value : GoString
  ttl : Duration
  began : Int
  ended : Int

/-- The length of the whole milliseconds of the TTL. -/
def Stored.lifetime (w : Stored) : Int := milliseconds w.ttl.ns * 1000000

def Op.stored (began ended : Int) : Op → Option Stored
  | .set _ value ttl => some ⟨value, ttl, began, ended⟩
  | .get _ | .delete _ => none

/-- What the last write to a key left. The newest call comes first. -/
def lastWrite (key : GoString) : List Call → Option Stored
  | [] => none
  | c :: past =>
      if c.op.isWrite = true ∧ c.op.key = key then c.op.stored c.began c.ended
      else lastWrite key past

/-- The answers of a `Get` that runs between two times. -/
def Allowed (began ended : Int) (r : GetResponse) : Option Stored → Prop
  | none => r = ⟨[], false⟩
  | some w =>
      (ended - w.began < w.lifetime → r = ⟨w.value, true⟩) ∧
      (w.lifetime ≤ began - w.ended → r = ⟨[], false⟩) ∧
      (r = ⟨w.value, true⟩ ∨ r = ⟨[], false⟩)

/-- The call returned what it should after the calls of the past. -/
def Call.Correct (past : List Call) (c : Call) : Prop :=
  match c.op with
  | .get key => ∃ r : GetResponse, c.outcome = .read r.value r.wasFound none ∧
      Allowed c.began c.ended r (lastWrite key past)
  | .set _ _ _ | .delete _ => c.outcome = .written none

/-- Keys are not empty and nothing fails. -/
def StoreEvent.Ordinary : StoreEvent → Prop
  | .call op _ => op.key ≠ []
  | .fail _ _ => False
  | _ => True

instance (e : StoreEvent) : Decidable e.Ordinary :=
  match e with
  | .call op _ => inferInstanceAs (Decidable (op.key ≠ []))
  | .fail _ _ => isFalse id
  | .tick _ | .clean _ _ | .serve _ | .finish => isTrue trivial

def Client.remaining : Client → Nat
  | .idle => 0
  | .calling _ _ phase => phase.remaining

/-- A call under way comes to its end: it can make a step, and each of its steps leaves
fewer to make. -/
def Store.Advances (M : Machine Store StoreEvent) (s : Store) : Prop :=
  s.client ≠ .idle →
    (∃ e t, e.Ordinary ∧ M.step s e = some t ∧ t.client.remaining < s.client.remaining) ∧
    ∀ e t, e.Ordinary → M.step s e = some t →
      t.client = s.client ∨ t.client.remaining < s.client.remaining

/-- Every server hosts the shards that the shard map assigns to it, without entries. -/
def Processed (sm : ShardMapState) (servers : GoString → KvServerImpl) : Prop :=
  ∀ node, (servers node).nodeName = node ∧
    (∀ shard, shard ∈ (servers node).availableShards ↔ shard ∈ (servers node).assigned sm) ∧
    ∀ shard data, (servers node).availableShards.lookup shard = some data → data.data = ∅

section Entries

variable {began ended now now' : Int} {w : Option Stored} {entry : Option CacheItem}

/-- The entry of a replica that has seen a write. An entry is gone only if it expired. -/
def Fits (now : Int) : Option Stored → Option CacheItem → Prop
  | none, entry => entry = none
  | some w, none => w.lifetime ≤ now - w.began
  | some w, some item => item.value = w.value ∧ item.ttl = milliseconds w.ttl.ns ∧
      w.began ≤ item.timeElapsed ∧ item.timeElapsed ≤ w.ended ∧ item.timeElapsed ≤ now

theorem Fits.mono (hn : now ≤ now') (h : Fits now w entry) : Fits now' w entry := by
  cases w with
  | none => exact h
  | some w =>
      cases entry with
      | none => exact Int.le_trans h (by omega)
      | some item =>
          obtain ⟨hv, ht, hb, he, hi⟩ := h
          exact ⟨hv, ht, hb, he, by omega⟩

theorem expired_iff {w : Stored} {item : CacheItem} (ht : item.ttl = milliseconds w.ttl.ns)
    (hi : item.timeElapsed ≤ now) :
    item.expired now = true ↔ w.lifetime ≤ now - item.timeElapsed := by
  simp only [CacheItem.expired, CacheItem.elapsed, ht, decide_eq_true_eq]
  exact le_milliseconds_timeSub w.ttl hi

theorem Fits.expire {item : CacheItem} (h : Fits now w (some item))
    (hexp : item.expired now = true) : Fits now w none := by
  cases w with
  | none => cases h
  | some w =>
      obtain ⟨_, ht, hb, _, hi⟩ := h
      have hlife := (expired_iff ht hi).mp hexp
      exact Int.le_trans hlife (by omega)

theorem Allowed.mono {r : GetResponse} (hn : now ≤ now') (h : Allowed began now r w) :
    Allowed began now' r w := by
  cases w with
  | none => exact h
  | some w =>
      obtain ⟨hlive, hdead, hor⟩ := h
      exact ⟨fun hlt => hlive (by omega), hdead, hor⟩

/-- A replica whose entry fits the last write answers as allowed. -/
theorem allowed_response (hb : began ≤ now) (h : Fits now w entry) :
    Allowed began now (response now entry) w := by
  cases w with
  | none =>
      cases h
      rfl
  | some w =>
      cases entry with
      | none =>
          have hlife : w.lifetime ≤ now - w.began := h
          exact ⟨fun hlt => by omega, fun _ => rfl, Or.inr rfl⟩
      | some item =>
          obtain ⟨hv, ht, hbegan, hended, hi⟩ := h
          have hexp := expired_iff ht hi
          have hfound : (⟨item.value, true⟩ : GetResponse) = ⟨w.value, true⟩ := by rw [hv]
          simp only [response]
          cases he : item.expired now with
          | false =>
              simp only [he, Bool.false_eq_true, false_iff] at hexp
              exact ⟨fun _ => hfound, fun hle => by omega, Or.inl hfound⟩
          | true =>
              have hlife := hexp.mp he
              exact ⟨fun hlt => by omega, fun _ => rfl, Or.inr rfl⟩

end Entries

section Writes

variable {op : Op} {began ended now : Int}

/-- The entry that a write leaves on a replica. -/
def Op.item (now : Int) : Op → Option CacheItem
  | .set _ value ttl => some ⟨value, milliseconds ttl.ns, now⟩
  | .get _ | .delete _ => none

theorem fits_item (hb : began ≤ now) (he : now ≤ ended) :
    Fits now (op.stored began ended) (op.item now) := by
  cases op with
  | get _ | delete _ => rfl
  | set _ _ _ => exact ⟨rfl, rfl, hb, he, Int.le_refl now⟩

theorem serve_write {server : KvServerImpl} {numShards : Int} (now : Int)
    (clock : GoString → Int × Int) (hw : op.isWrite = true) (hk : op.key ≠ [])
    (hh : server.Hosts numShards op.key) :
    ∃ server' response, server.serve numShards now clock op.request =
        some (server', ⟨some response, none⟩) ∧
      server.Wrote server' numShards op.key (op.item now) := by
  cases op with
  | get key => cases hw
  | set key value ttl =>
      obtain ⟨server', hserve, hwrote⟩ := KvServerImpl.serve_set hk hh
      exact ⟨server', .set, hserve, hwrote⟩
  | delete key =>
      obtain ⟨server', hserve, hwrote⟩ := KvServerImpl.serve_delete hk hh
      exact ⟨server', .delete, hserve, hwrote⟩

end Writes

section Invariant

variable {sm : ShardMapState} {s t : Store}

/-- The entries of a key on all its nodes fit what a write left. -/
def Replicas (sm : ShardMapState) (s : Store) (key : GoString) (w : Option Stored) : Prop :=
  ∀ node ∈ sm.nodesForKey key, Fits s.now w ((s.servers node).held sm.numShards key)

/-- The entries of every key, but for one that is being written. -/
def Settled (sm : ShardMapState) (s : Store) (p : GoString → Prop) : Prop :=
  ∀ key, key ≠ [] → p key → Replicas sm s key (lastWrite key s.calls)

inductive ClientOk (sm : ShardMapState) (s : Store) : Client → Prop
  | idle (hr : Settled sm s fun _ => True) : ClientOk sm s .idle
  | getting {key : GoString} {began : Int} {startIndex : Nat} (hk : key ≠ [])
      (hb : began ≤ s.now) (hi : startIndex < (sm.nodesForKey key).length)
      (hr : Settled sm s fun _ => True) :
      ClientOk sm s (.calling (.get key) began
        (.getting (sm.nodesForKey key) startIndex 0 none))
  | returning {key : GoString} {began : Int} {r : GetResponse}
      (ha : Allowed began s.now r (lastWrite key s.calls))
      (hr : Settled sm s fun _ => True) :
      ClientOk sm s (.calling (.get key) began (.returning (.read r.value r.wasFound none)))
  | writing {op : Op} {began : Int} {todo : List GoString} (hw : op.isWrite = true)
      (hk : op.key ≠ []) (hb : began ≤ s.now) (ht : todo ⊆ sm.nodesForKey op.key)
      (hd : ∀ node ∈ sm.nodesForKey op.key, node ∈ todo ∨ ∀ ended, s.now ≤ ended →
        Fits s.now (op.stored began ended) ((s.servers node).held sm.numShards op.key))
      (hr : Settled sm s fun key => key ≠ op.key) :
      ClientOk sm s (.calling op began (.writing todo []))

structure Store.Ok (sm : ShardMapState) (s : Store) : Prop where
  alive : s.panicked = false
  hosts : ∀ key, ∀ node ∈ sm.nodesForKey key, (s.servers node).Hosts sm.numShards key
  correct : ∀ c past, c :: past <:+ s.calls → c.Correct past
  client : ClientOk sm s s.client

/-- Time passes and cleaners run: the entries go on fitting. -/
structure Store.Ages (numShards : Int) (s t : Store) : Prop where
  now : s.now ≤ t.now
  client : t.client = s.client
  calls : t.calls = s.calls
  panicked : t.panicked = s.panicked
  shards : ∀ node shard, shard ∈ (t.servers node).availableShards ↔
    shard ∈ (s.servers node).availableShards
  fits : ∀ node key w, Fits s.now w ((s.servers node).held numShards key) →
    Fits t.now w ((t.servers node).held numShards key)

theorem Store.Ages.settled {p : GoString → Prop} (ha : s.Ages sm.numShards t)
    (h : Settled sm s p) : Settled sm t p := by
  intro key hk hp node hnode
  rw [ha.calls]
  exact ha.fits node key _ (h key hk hp node hnode)

theorem Store.Ages.ok (ha : s.Ages sm.numShards t) (hok : s.Ok sm) : t.Ok sm := by
  refine ⟨ha.panicked.trans hok.alive, ?_, ?_, ?_⟩
  · exact fun key node hnode => (hok.hosts key node hnode).congr (ha.shards node)
  · rw [ha.calls]
    exact hok.correct
  · have hclient := hok.client
    rw [ha.client]
    generalize s.client = client at hclient
    cases hclient with
    | idle hr => exact .idle (ha.settled hr)
    | getting hk hb hi hr => exact .getting hk (Int.le_trans hb ha.now) hi (ha.settled hr)
    | returning hallowed hr =>
        refine .returning ?_ (ha.settled hr)
        rw [ha.calls]
        exact hallowed.mono ha.now
    | writing hw hk hb ht hd hr =>
        refine .writing hw hk (Int.le_trans hb ha.now) ht ?_ (ha.settled hr)
        intro node hnode
        refine (hd node hnode).imp id fun hfits ended he => ?_
        exact ha.fits node _ _ (hfits ended (Int.le_trans ha.now he))

theorem Store.ages_tick {numShards now : Int} (hn : s.now ≤ now) :
    s.Ages numShards { s with now } :=
  ⟨hn, rfl, rfl, rfl, fun _ _ => Iff.rfl, fun _ _ _ hf => hf.mono hn⟩

theorem Store.ages_clean {numShards shard : Int} {node : GoString} {server : KvServerImpl}
    (hc : (s.servers node).clean shard s.now = some server) :
    s.Ages numShards (s.setServer node server) := by
  obtain ⟨hshards, hheld⟩ := KvServerImpl.held_clean numShards hc
  refine ⟨Int.le_refl _, rfl, rfl, rfl, fun other shard => ?_, fun other key w hf => ?_⟩
  · rcases eq_or_ne other node with rfl | hne
    · simp only [setServer, Function.update_self]
      exact hshards shard
    · simp only [setServer, Function.update_of_ne hne]
  · rcases eq_or_ne other node with rfl | hne
    · simp only [setServer, Function.update_self]
      rcases hheld key with heq | ⟨hgone, item, hitem, hexp⟩
      · rw [heq]
        exact hf
      · rw [hitem] at hf
        rw [hgone]
        exact hf.expire hexp
    · simp only [setServer, Function.update_of_ne hne]
      exact hf

theorem start_ok {op : Op} {startIndex : Nat} {r : Except Panic CallPhase}
    (hn : 1 ≤ sm.numShards) (hnodes : sm.nodesForKey op.key ≠ [])
    (h : op.start sm startIndex = some r) :
    (op.isWrite = true ∧ r = .ok (.writing (sm.nodesForKey op.key) [])) ∨
    (op.isWrite = false ∧ startIndex < (sm.nodesForKey op.key).length ∧
      r = .ok (.getting (sm.nodesForKey op.key) startIndex 0 none)) := by
  rw [Op.start, getShardForKey_eq hn, if_neg (Option.some_ne_none _), if_neg hnodes] at h
  split at h
  · cases h
    exact Or.inl ⟨‹_›, rfl⟩
  · split at h <;> cases h
    exact Or.inr ⟨Bool.eq_false_iff.mpr ‹_›, ‹_›, rfl⟩

theorem Store.Ok.start (hok : s.Ok sm) {op : Op} {startIndex : Nat} {phase : CallPhase}
    (hn : 1 ≤ sm.numShards) (hnodes : sm.nodesForKey op.key ≠ []) (hk : op.key ≠ [])
    (hc : s.client = .idle) (h : op.start sm startIndex = some (.ok phase)) :
    { s with client := .calling op s.now phase }.Ok sm := by
  have hclient := hok.client
  rw [hc] at hclient
  cases hclient with
  | idle hr =>
      refine ⟨hok.alive, hok.hosts, hok.correct, ?_⟩
      rcases start_ok hn hnodes h with ⟨hw, heq⟩ | ⟨hw, hi, heq⟩
      · cases heq
        exact .writing hw hk (Int.le_refl _) (List.Subset.refl _)
          (fun node hnode => Or.inl hnode) (fun key hk _ => hr key hk trivial)
      · cases heq
        cases op with
        | get key => exact .getting hk (Int.le_refl _) hi hr
        | set _ _ _ | delete _ => cases hw

theorem Store.Ok.serve_get (hok : s.Ok sm) {key node : GoString} {began : Int}
    {startIndex : Nat} (hk : key ≠ []) (hb : began ≤ s.now)
    (hr : Settled sm s fun _ => True) (hnode : node ∈ sm.nodesForKey key) :
    (s.serve sm node (.get key) began
      (.getting (sm.nodesForKey key) startIndex 0 none)).Ok sm := by
  have hserve : (s.servers node).serve sm.numShards s.now (fun _ => (s.now, s.now))
      (.get key) = _ := KvServerImpl.serve_get hk (hok.hosts key node hnode)
  have hallowed := allowed_response hb (hr key hk trivial node hnode)
  simp only [serve, Op.request, hserve, setServer, Function.update_eq_self]
  exact ⟨hok.alive, hok.hosts, hok.correct, .returning hallowed hr⟩

theorem Store.Ok.serve_write (hok : s.Ok sm) {op : Op} {node : GoString} {began : Int}
    {todo : List GoString} (hw : op.isWrite = true) (hk : op.key ≠ []) (hb : began ≤ s.now)
    (ht : todo ⊆ sm.nodesForKey op.key)
    (hd : ∀ node ∈ sm.nodesForKey op.key, node ∈ todo ∨ ∀ ended, s.now ≤ ended →
      Fits s.now (op.stored began ended) ((s.servers node).held sm.numShards op.key))
    (hr : Settled sm s fun key => key ≠ op.key) (hnode : node ∈ todo) :
    (s.serve sm node op began (.writing todo [])).Ok sm := by
  obtain ⟨server, response, hserve, hwrote⟩ := KvLab.serve_write s.now
    (fun _ => (s.now, s.now)) hw hk (hok.hosts op.key node (ht hnode))
  simp only [serve, hserve]
  refine ⟨hok.alive, ?_, hok.correct, .writing hw hk hb ?_ ?_ ?_⟩
  · intro key other hother
    have hhosts := hok.hosts key other hother
    rcases eq_or_ne other node with rfl | hne
    · simp only [setServer, Function.update_self]
      exact hhosts.congr hwrote.shards
    · simp only [setServer, Function.update_of_ne hne]
      exact hhosts
  · exact fun other ho => ht (List.mem_of_mem_erase ho)
  · intro other hother
    rcases eq_or_ne other node with rfl | hne
    · simp only [setServer, Function.update_self, hwrote.self]
      exact Or.inr fun ended he => fits_item hb he
    · simp only [setServer, Function.update_of_ne hne, List.mem_erase_of_ne hne]
      exact hd other hother
  · intro key hkey hne other hother
    have hfits := hr key hkey hne other hother
    rcases eq_or_ne other node with rfl | hne'
    · simp only [setServer, Function.update_self, hwrote.other key hne]
      exact hfits
    · simp only [setServer, Function.update_of_ne hne']
      exact hfits

theorem Store.Ok.record (hok : s.Ok sm) {c : Call} (hc : c.Correct s.calls)
    (hr : Settled sm { s with client := .idle, calls := c :: s.calls } fun _ => True) :
    { s with client := .idle, calls := c :: s.calls }.Ok sm := by
  refine ⟨hok.alive, hok.hosts, ?_, .idle hr⟩
  intro c' past hsuffix
  rcases List.suffix_cons_iff.mp hsuffix with heq | hsuffix
  · cases heq
    exact hc
  · exact hok.correct c' past hsuffix

theorem Store.Ok.finish (hok : s.Ok sm) {op : Op} {began : Int} {phase : CallPhase}
    {outcome : Outcome} (hc : s.client = .calling op began phase)
    (hres : phase.result = some outcome) :
    { s with client := .idle, calls := ⟨op, began, s.now, outcome⟩ :: s.calls }.Ok sm := by
  have hclient := hok.client
  rw [hc] at hclient
  cases hclient with
  | getting _ _ hi _ =>
      rw [CallPhase.result, if_neg (by omega)] at hres
      cases hres
  | @returning key _ r hallowed hr =>
      cases hres
      refine hok.record ⟨r, rfl, hallowed⟩ fun k hk _ => ?_
      rw [lastWrite, if_neg (fun h => nomatch h.1)]
      exact hr k hk trivial
  | @writing _ _ todo hw _ _ _ hd hr =>
      cases todo with
      | cons _ _ => cases hres
      | nil =>
          cases hres
          refine hok.record ?_ fun k hk _ => ?_
          · cases op with
            | get _ => cases hw
            | set _ _ _ | delete _ => rfl
          · rcases eq_or_ne op.key k with rfl | hne
            · rw [lastWrite, if_pos ⟨hw, rfl⟩]
              intro node hnode
              rcases hd node hnode with hmem | hfits
              · cases hmem
              · exact hfits s.now (Int.le_refl _)
            · rw [lastWrite, if_neg (fun h => hne h.2)]
              exact hr k hk (Ne.symm hne)

theorem Store.Ok.step (hok : s.Ok sm) (hn : 1 ≤ sm.numShards)
    (hnodes : ∀ key, sm.nodesForKey key ≠ []) {e : StoreEvent} (he : e.Ordinary)
    (h : s.step sm e = some t) : t.Ok sm := by
  cases s.step_cases h with
  | tick hle => exact (Store.ages_tick hle).ok hok
  | clean hc => exact (Store.ages_clean hc).ok hok
  | callPanic _ hs =>
      rcases start_ok hn (hnodes _) hs with ⟨_, heq⟩ | ⟨_, _, heq⟩
      · cases heq
      · cases heq
  | call hc hs => exact hok.start hn (hnodes _) he hc hs
  | serve hc ha =>
      have hclient := hok.client
      rw [hc] at hclient
      cases hclient with
      | getting hk hb _ hr => exact hok.serve_get hk hb hr (List.mem_of_getElem? ha.2)
      | returning _ _ => cases ha
      | writing hw hk hb ht hd hr => exact hok.serve_write hw hk hb ht hd hr ha
  | fail _ _ => cases he
  | finish hc hres => exact hok.finish hc hres

theorem CallPhase.remaining_onAnswer {phase : CallPhase} {node : GoString}
    {answer : Except CallErr (Option Response)} (ha : phase.Awaits node) :
    (phase.onAnswer node answer).remaining < phase.remaining := by
  cases phase with
  | getting nodes startIndex i lastErr =>
      obtain ⟨hi, _⟩ := ha
      cases answer with
      | ok _ =>
          simp only [onAnswer, remaining]
          omega
      | error _ =>
          simp only [onAnswer, remaining]
          omega
  | writing todo errs =>
      have hpos := List.length_pos_of_mem ha
      have hlen := List.length_erase_of_mem ha
      cases answer with
      | ok _ | error _ =>
          simp only [onAnswer, remaining, hlen]
          omega
  | returning _ => cases ha

theorem CallPhase.remaining_pos (phase : CallPhase) : 0 < phase.remaining := by
  cases phase with
  | getting _ _ _ _ | writing _ _ | returning _ => exact Nat.succ_pos _

theorem Store.serve_client (sm : ShardMapState) (s : Store) (node : GoString) (op : Op)
    (began : Int) (phase : CallPhase) :
    ((s.serve sm node op began phase).panicked = true ∧
      (s.serve sm node op began phase).client = s.client) ∨
    ∃ answer, (s.serve sm node op began phase).client =
      .calling op began (phase.onAnswer node answer) := by
  simp only [serve]
  split
  · exact Or.inl ⟨rfl, rfl⟩
  · exact Or.inr ⟨_, rfl⟩

/-- A call that has not returned waits for a node or can return. -/
theorem ClientOk.awaits_or_result {op : Op} {began : Int} {phase : CallPhase}
    (h : ClientOk sm s (.calling op began phase)) :
    (∃ node, phase.Awaits node) ∨ ∃ outcome, phase.result = some outcome := by
  cases h with
  | @getting key _ startIndex _ _ hi _ =>
      have hpos : 0 < (sm.nodesForKey key).length := by omega
      have hlt := Nat.mod_lt (0 + startIndex) hpos
      exact Or.inl ⟨_, hpos, List.getElem?_eq_getElem hlt⟩
  | returning _ _ => exact Or.inr ⟨_, rfl⟩
  | @writing _ _ todo _ _ _ _ _ _ =>
      cases todo with
      | nil => exact Or.inr ⟨_, rfl⟩
      | cons node rest => exact Or.inl ⟨node, List.mem_cons_self⟩

theorem Store.Ok.advances (hok : s.Ok sm) (hn : 1 ≤ sm.numShards)
    (hnodes : ∀ key, sm.nodesForKey key ≠ []) (servers : GoString → KvServerImpl)
    (now : Int) : s.Advances (store sm servers now) := by
  intro hbusy
  cases hc : s.client with
  | idle => exact absurd hc hbusy
  | calling op began phase =>
      refine ⟨?_, fun e t he hstep => ?_⟩
      · have hclient := hok.client
        rw [hc] at hclient
        rcases hclient.awaits_or_result with ⟨node, ha⟩ | ⟨outcome, hres⟩
        · have hstep : s.step sm (.serve node) = some (s.serve sm node op began phase) := by
            simp [Store.step, hok.alive, hc, ha]
          have halive := (hok.step hn hnodes (e := .serve node) trivial hstep).alive
          refine ⟨.serve node, _, trivial, hstep, ?_⟩
          rcases s.serve_client sm node op began phase with ⟨hpanic, _⟩ | ⟨answer, heq⟩
          · rw [halive] at hpanic
            cases hpanic
          · rw [heq]
            exact CallPhase.remaining_onAnswer ha
        · refine ⟨.finish, { s with
            client := .idle, calls := ⟨op, began, s.now, outcome⟩ :: s.calls }, trivial, ?_,
            phase.remaining_pos⟩
          simp [store, Store.step, hok.alive, hc, hres]
      · cases s.step_cases hstep with
        | tick _ | clean _ | callPanic _ _ => exact Or.inl hc
        | call hidle _ => exact absurd hidle hbusy
        | serve hc' ha =>
            obtain ⟨rfl, rfl, rfl⟩ := Client.calling.inj (hc.symm.trans hc')
            rcases s.serve_client sm _ op began phase with ⟨_, heq⟩ | ⟨answer, heq⟩
            · exact Or.inl (heq.trans hc)
            · rw [heq]
              exact Or.inr (CallPhase.remaining_onAnswer ha)
        | fail _ _ => cases he
        | finish _ _ => exact Or.inr phase.remaining_pos

end Invariant

section Shards

variable {sm : ShardMapState} {servers : GoString → KvServerImpl}

/-- The nodes of a key host its shard. -/
theorem Processed.hosts (hp : Processed sm servers) {key node : GoString}
    (h : node ∈ sm.nodesForKey key) : (servers node).Hosts sm.numShards key := by
  rw [ShardMapState.nodesForKey] at h
  split at h
  · cases h
  · rename_i shardID hid
    obtain ⟨hname, hshards, _⟩ := hp node
    refine ⟨int32 shardID, by rw [shardFor, hid]; rfl, (hshards _).mpr ?_⟩
    rw [KvServerImpl.assigned, hname]
    exact List.mem_map_of_mem (ShardMapState.mem_shardsForNode h)

theorem Processed.held (hp : Processed sm servers) (node key : GoString) :
    (servers node).held sm.numShards key = none := by
  rw [KvServerImpl.held]
  cases shardFor key sm.numShards with
  | none => rfl
  | some shard =>
      rw [Option.bind_some]
      cases hl : (servers node).availableShards.lookup shard with
      | none => rfl
      | some data =>
          rw [Option.bind_some, (hp node).2.2 shard data hl]
          rfl

theorem nodesForKey_ne_nil (hn : 1 ≤ sm.numShards)
    (hnodes : ∀ shard, 1 ≤ shard → shard ≤ sm.numShards → sm.nodesForShard shard ≠ [])
    (key : GoString) : sm.nodesForKey key ≠ [] := by
  have hpos : 0 ≤ ((sum32 key).toNat : Int) := Int.natCast_nonneg _
  have hlo := Int.tmod_nonneg sm.numShards hpos
  have hhi := Int.tmod_lt_of_pos ((sum32 key).toNat : Int) (show 0 < sm.numShards by omega)
  rw [ShardMapState.nodesForKey, getShardForKey_eq hn]
  exact hnodes _ (by omega) (by omega)

theorem Processed.init_ok (hp : Processed sm servers) (now : Int) :
    (store sm servers now).init.Ok sm := by
  refine ⟨rfl, fun key node hnode => hp.hosts hnode, ?_, .idle ?_⟩
  · intro c past h
    cases List.suffix_nil.mp h
  · exact fun key _ _ node _ => hp.held node key

end Shards

/-- For a client that makes one call after the other, the servers of a fixed shard map
are a single map with expiring entries. -/
theorem kv_refines_timed_map {sm : ShardMapState} {servers : GoString → KvServerImpl}
    {now : Int} {h : List Store} (hn : 1 ≤ sm.numShards)
    (hnodes : ∀ shard, 1 ≤ shard → shard ≤ sm.numShards → sm.nodesForShard shard ≠ [])
    (hservers : Processed sm servers)
    (run : (store sm servers now).Run (fun _ e => e.Ordinary) h) :
    ∀ s ∈ h, s.panicked = false ∧ s.Advances (store sm servers now) ∧
      ∀ c past, c :: past <:+ s.calls → c.Correct past := by
  have hkeys := nodesForKey_ne_nil hn hnodes
  have hall := Machine.Run.invariant (I := Store.Ok sm) (hservers.init_ok now)
    (fun s e t hok he hstep => hok.step hn hkeys he hstep) run
  intro s hs
  have hok := hall s hs
  exact ⟨hok.alive, hok.advances hn hkeys servers now, hok.correct⟩

/-- The servers after the first handling of a shard map. -/
def madeServers (sm : ShardMapState) (node : GoString) : KvServerImpl :=
  (⟨node, ∅⟩ : KvServerImpl).register ((⟨node, ∅⟩ : KvServerImpl).shardsToBeAdded sm)

theorem processed_madeServers (sm : ShardMapState) : Processed sm (madeServers sm) := by
  intro node
  refine ⟨rfl, fun shard => ?_, fun shard data hl => ?_⟩
  · have hsame : (madeServers sm node).assigned sm =
        (⟨node, ∅⟩ : KvServerImpl).assigned sm := KvServerImpl.assigned_congr rfl
    rw [hsame, madeServers, KvServerImpl.mem_register, KvServerImpl.mem_shardsToBeAdded]
    simp only [AList.notMem_empty, not_false_eq_true, and_true, or_false]
  · rw [madeServers, KvServerImpl.lookup_register] at hl
    split at hl <;> cases hl
    rfl

/-- A value is read at one replica, and expires and is cleaned away at the other. -/
theorem kv_refines_timed_map_expiry : ∃ h,
    (store (smallMap [[2]] [[1], [2]]) (madeServers (smallMap [[2]] [[1], [2]])) 0).Run
      (fun _ e => e.Ordinary) h ∧
    (∃ s ∈ h, s.calls.map (·.outcome) =
      [.read [] false none, .read [7] true none, .written none]) ∧
    ∀ s ∈ h, s.panicked = false ∧
      s.Advances (store (smallMap [[2]] [[1], [2]])
        (madeServers (smallMap [[2]] [[1], [2]])) 0) ∧
      ∀ c past, c :: past <:+ s.calls → c.Correct past := by
  obtain ⟨h, run, hdone⟩ :=
    (store (smallMap [[2]] [[1], [2]]) (madeServers (smallMap [[2]] [[1], [2]])) 0
      ).exists_run_of_replay (fun _ e => e.Ordinary)
      [.call (.set [2] [7] ⟨5000000, by decide, by decide⟩) 0, .serve [1], .tick 1,
        .serve [2], .finish, .call (.get [2]) 1, .serve [2], .finish, .tick 5000000,
        .clean [1] 2, .call (.get [2]) 0, .serve [1], .finish]
      (fun h => ∃ s ∈ h, s.calls.map (·.outcome) =
        [.read [] false none, .read [7] true none, .written none])
      (by decide +kernel)
  refine ⟨h, run, hdone, kv_refines_timed_map (by decide) ?_ (processed_madeServers _) run⟩
  intro shard hlo hhi
  have hcases : shard = 1 ∨ shard = 2 := by
    have hhi : shard ≤ 2 := hhi
    omega
  rcases hcases with rfl | rfl <;> decide

end KvLab
