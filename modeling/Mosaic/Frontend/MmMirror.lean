import Mosaic.Frontend.MmInputCache

/-!
# When the caches of multimodal inputs stay mirrored

Once the engine has taken everything out of the channel, its cache should hold the items whose sizes
the front end's cache holds, in the same order of use. This is so as long as nothing happens to one
cache only: a call that is not delivered has to leave the front end's cache as it was, and a
request that is sent again has to leave the engine's cache as it was.
-/

namespace Multimodal

open List Fallible Lru Transition

variable {H V : Type} [DecidableEq H] {cfg : Config H V} {s t : System H V} {m : Message H V}

/-! ### Requests in the channel -/

/-- The engine takes the requests out of the channel one by one. -/
def drain (cfg : Config H V) :
    List (Message H V) → Cache H V → Except Fault (List (List V) × Cache H V)
  | [], c => .ok ([], c)
  | m :: rest, c => do
    let (items, c) ← cfg.serverGetAndUpdate m c
    let (answers, c) ← drain cfg rest c
    return (items :: answers, c)

/-- The items of a request, as its caller gave them. -/
def Message.originals (cfg : Config H V) (m : Message H V) : List V :=
  m.items.map fun e => cfg.content e.1

/-- The items that are sent are those of their hashes. All are sent if the caches are off. -/
def Message.Honest (cfg : Config H V) (m : Message H V) : Prop :=
  ∀ e ∈ m.items, (∀ v, e.2 = some v → v = cfg.content e.1) ∧
    (cfg.enabled = false → e.2.isSome = true)

/-- The engine answers all requests of the channel with the original items, and ends with the
mirror of the front end's cache. -/
def Mirrored (cfg : Config H V) (s : System H V) : Prop :=
  ∃ c, drain cfg s.channel s.server = .ok (s.channel.map (Message.originals cfg), c) ∧
    c.mapValues cfg.wraps = s.client

/-- A request that comes again is found by the front end's cache, which stays as it was. -/
def Repeats (cfg : Config H V) (m : Message H V) (c : Cache H CacheItemMetadata) : Prop :=
  cfg.enabled = true → ∃ sizes, receiveAll cfg.policy CacheItemMetadata.size
    (m.items.map fun e => (e.1, e.2.map cfg.wraps)) c = .ok (sizes, c)

/-- A call is not delivered: one of its items is too large, its id is in use, or it is
cancelled. -/
def Undelivered (cfg : Config H V) (s : System H V) (requestId : String) (n : ℕ) (hashes : List H)
    (cancelled : Bool) : Prop :=
  (∃ fault, (cfg.clientGetAndUpdate hashes s.client).1 = .error fault) ∨
    System.firstId requestId n ∈ s.requestStates ∨ cancelled = true

/-- What an event has to satisfy. -/
def Keeps (cfg : Config H V) (s : System H V) : Event H → Prop
  | .call requestId n hashes cancelled => Undelivered cfg s requestId n hashes cancelled →
      (cfg.clientGetAndUpdate hashes s.client).2 = s.client
  | .child index cancelled => ∀ call, s.calls[index]? = some call →
      Frontend.childRequestId call.next call.requestId ∉ s.requestStates → cancelled = false →
        Repeats cfg call.message s.client
  | .callEnds _ | .finished _ | .engine => True

/-! ### Mirrored updates -/

section Updates

variable {W : Type} {f : V → W} {size : V → ℕ} {size' : W → ℕ} {p : Policy} {h : H}
  {sent : Option V} {items : List (H × Option V)} {c c' : Cache H V} {content : H → V}

/-- A map of the values that keeps sizes commutes with the engine's update. -/
theorem receive_mapValues (hsize : ∀ v, size' (f v) = size v) (h : H) (sent : Option V)
    (c : Cache H V) : receive p size' h (sent.map f) (c.mapValues f) =
      (receive p size h sent c).map fun r => (f r.1, r.2.mapValues f) := by
  unfold receive
  cases sent with
  | none =>
    simp only [Option.map_none, Cache.get_mapValues]
    cases c.get h <;> rfl
  | some v =>
    simp only [Option.map_some, Cache.set_mapValues hsize]
    cases c.set p size h v <;> rfl

theorem receiveAll_mapValues (hsize : ∀ v, size' (f v) = size v) (items : List (H × Option V))
    (c : Cache H V) :
    receiveAll p size' (items.map fun e => (e.1, e.2.map f)) (c.mapValues f) =
      (receiveAll p size items c).map fun r => (r.1.map f, r.2.mapValues f) := by
  induction items generalizing c with
  | nil => rfl
  | cons e rest ih =>
    obtain ⟨h, sent⟩ := e
    simp only [map_cons, receiveAll, receive_mapValues hsize]
    cases receive p size h sent c with
    | error fault => rfl
    | ok r =>
      simp only [Except.map, bind, Except.bind, ih]
      cases receiveAll p size rest r.2 <;> rfl

/-- The engine answers with the items that the hashes stand for. -/
theorem receive_eq_ok {v : V} (hc : c.Holds content) (hsent : ∀ v, sent = some v → v = content h)
    (hok : receive p size h sent c = .ok (v, c')) : v = content h ∧ c'.Holds content := by
  unfold receive at hok
  cases sent with
  | none =>
    cases hget : c.get h with
    | none =>
      rw [hget] at hok
      cases hok
    | some r =>
      rw [hget] at hok
      obtain rfl : r = (v, c') := Except.ok.inj hok
      exact hc.get hget
  | some w =>
    obtain rfl := hsent w rfl
    dsimp only at hok
    cases hset : c.set p size h (content h) with
    | none =>
      rw [hset] at hok
      cases hok
    | some d =>
      rw [hset] at hok
      cases hok
      exact ⟨rfl, hc.set hset⟩

theorem receiveAll_eq_ok {answers : List V} (hc : c.Holds content)
    (hsent : ∀ e ∈ items, ∀ v, e.2 = some v → v = content e.1)
    (hok : receiveAll p size items c = .ok (answers, c')) :
    answers = items.map (fun e => content e.1) ∧ c'.Holds content := by
  induction items generalizing c answers with
  | nil =>
    cases hok
    exact ⟨rfl, hc⟩
  | cons e rest ih =>
    obtain ⟨⟨v, _⟩, hreceive, hok⟩ := bind_eq_ok.mp hok
    obtain ⟨⟨_, _⟩, hrest, hok⟩ := bind_eq_ok.mp hok
    cases hok
    obtain ⟨hhead, htail⟩ := forall_mem_cons.mp hsent
    obtain ⟨rfl, hd⟩ := receive_eq_ok hc hhead hreceive
    obtain ⟨rfl, hd'⟩ := ih hd htail hrest
    exact ⟨rfl, hd'⟩

end Updates

omit [DecidableEq H] in
/-- The metadata of an item has its size. -/
theorem size_wraps (cfg : Config H V) (v : V) : (cfg.wraps v).size = cfg.getItemSize v := rfl

variable {hashes : List H}

/-- The engine's update follows the front end's, and answers with the original items. -/
theorem visit_follows {c : Cache H V} {sent : List (Option V)}
    {client : Cache H CacheItemMetadata} (hc : c.Holds cfg.content)
    (hok : cfg.visit hashes (c.mapValues cfg.wraps) = (.ok sent, client)) :
    ∃ c', c'.mapValues cfg.wraps = client ∧ c'.Holds cfg.content ∧ sent.length = hashes.length ∧
      (∀ e ∈ hashes.zip sent, ∀ v, e.2 = some v → v = cfg.content e.1) ∧
      receiveAll cfg.policy cfg.getItemSize (hashes.zip sent) c =
        .ok (hashes.map cfg.content, c') := by
  induction hashes generalizing c sent client with
  | nil =>
    obtain ⟨hsent, rfl⟩ := Prod.mk.inj hok
    cases hsent
    exact ⟨c, rfl, hc, rfl, nofun, rfl⟩
  | cons h rest ih =>
    rw [Config.visit, Cache.get_mapValues] at hok
    -- after the first item both caches are mirrored again
    have next : ∀ (d : Cache H V) (first : Option V), d.Holds cfg.content →
        (∀ v, first = some v → v = cfg.content h) →
        receive cfg.policy cfg.getItemSize h first c = .ok (cfg.content h, d) →
        (((cfg.visit rest (d.mapValues cfg.wraps)).1.map (first :: ·)),
          (cfg.visit rest (d.mapValues cfg.wraps)).2) = (.ok sent, client) →
        ∃ c', c'.mapValues cfg.wraps = client ∧ c'.Holds cfg.content ∧
          sent.length = (h :: rest).length ∧
          (∀ e ∈ (h :: rest).zip sent, ∀ v, e.2 = some v → v = cfg.content e.1) ∧
          receiveAll cfg.policy cfg.getItemSize ((h :: rest).zip sent) c =
            .ok ((h :: rest).map cfg.content, c') := by
      intro d first hd hfirst hreceive hvisit
      obtain ⟨hsent, hclient⟩ := Prod.mk.inj hvisit
      cases hrest : (cfg.visit rest (d.mapValues cfg.wraps)).1 with
      | error fault =>
        rw [hrest] at hsent
        cases hsent
      | ok others =>
        rw [hrest] at hsent
        cases hsent
        obtain ⟨c', hmirror, hholds, hlen, hhonest, hall⟩ := ih hd (Prod.ext hrest hclient)
        refine ⟨c', hmirror, hholds, by simp [hlen], ?_, ?_⟩
        · rw [zip_cons_cons]
          exact forall_mem_cons.mpr ⟨hfirst, hhonest⟩
        · rw [zip_cons_cons, receiveAll, hreceive]
          simp only [bind, Except.bind, hall, map_cons, pure, Except.pure]
    cases hget : c.get h with
    | some r =>
      rw [hget] at hok
      obtain ⟨hv, hd⟩ := hc.get (show c.get h = some (r.1, r.2) from hget)
      refine next r.2 none hd nofun ?_ hok
      rw [← hv]
      unfold receive
      simp only [hget, Option.elim_some]
    | none =>
      rw [hget] at hok
      rw [Cache.set_mapValues (size_wraps cfg)] at hok
      cases hset : c.set cfg.policy cfg.getItemSize h (cfg.content h) with
      | none =>
        rw [hset] at hok
        cases (Prod.mk.inj hok).1
      | some d =>
        rw [hset] at hok
        refine next d (some (cfg.content h)) (hc.set hset)
          (fun v hv => (Option.some.inj hv).symm) ?_ hok
        unfold receive
        simp only [hset, Option.elim_some]

/-- If the caches are off, then the engine passes the items on. -/
theorem serverGetAndUpdate_of_disabled (henabled : cfg.enabled = false) (hm : m.Honest cfg)
    (c : Cache H V) : cfg.serverGetAndUpdate m c = .ok (m.originals cfg, c) := by
  have hall : ∀ items : List (H × Option V), (∀ e ∈ items,
      (∀ v, e.2 = some v → v = cfg.content e.1) ∧ (cfg.enabled = false → e.2.isSome = true)) →
      items.filterMap Prod.snd = items.map fun e => cfg.content e.1 := by
    intro items hitems
    induction items with
    | nil => rfl
    | cons e rest ih =>
      obtain ⟨hhead, htail⟩ := forall_mem_cons.mp hitems
      obtain ⟨v, hv⟩ := Option.isSome_iff_exists.mp (hhead.2 henabled)
      rw [filterMap_cons_some hv, map_cons, ih htail, hhead.1 v hv]
  unfold Config.serverGetAndUpdate Message.originals
  rw [if_neg (by simp [henabled]), hall m.items hm]

/-- What a call sends, the engine answers with the original items. -/
theorem client_follows {c : Cache H V} {sent : List (Option V)}
    {client : Cache H CacheItemMetadata} (hc : c.Holds cfg.content)
    (hok : cfg.clientGetAndUpdate hashes (c.mapValues cfg.wraps) = (.ok sent, client)) :
    (Message.mk (hashes.zip sent)).Honest cfg ∧ ∃ c', c'.mapValues cfg.wraps = client ∧
      cfg.serverGetAndUpdate ⟨hashes.zip sent⟩ c =
        .ok ((Message.mk (hashes.zip sent)).originals cfg, c') := by
  unfold Config.clientGetAndUpdate at hok
  cases henabled : cfg.enabled with
  | true =>
    rw [if_pos henabled] at hok
    obtain ⟨c', hmirror, -, hlen, hhonest, hall⟩ := visit_follows hc hok
    refine ⟨fun e he => ⟨hhonest e he, fun hoff => ?_⟩, c', hmirror, ?_⟩
    · rw [henabled] at hoff
      cases hoff
    · have horiginals := congrArg (List.map cfg.content) (map_fst_zip hlen.ge)
      rw [map_map] at horiginals
      unfold Config.serverGetAndUpdate
      rw [if_pos henabled, hall, ← horiginals]
      rfl
  | false =>
    rw [if_neg (by simp [henabled])] at hok
    obtain ⟨hsent, rfl⟩ := Prod.mk.inj hok
    cases hsent
    have hhonest : (Message.mk (hashes.zip (hashes.map fun h => some (cfg.content h)))).Honest
        cfg := by
      intro e he
      rw [← map_prod_left_eq_zip] at he
      obtain ⟨h, -, rfl⟩ := mem_map.mp he
      exact ⟨fun v hv => (Option.some.inj hv).symm, fun _ => rfl⟩
    exact ⟨hhonest, c, rfl, serverGetAndUpdate_of_disabled henabled hhonest c⟩

/-! ### The channel -/

variable {c c' : Cache H V}

theorem serverGetAndUpdate_eq_ok {answers : List V} (hc : c.Holds cfg.content) (hm : m.Honest cfg)
    (hok : cfg.serverGetAndUpdate m c = .ok (answers, c')) :
    answers = m.originals cfg ∧ c'.Holds cfg.content := by
  cases henabled : cfg.enabled with
  | true =>
    unfold Config.serverGetAndUpdate at hok
    rw [if_pos henabled] at hok
    exact receiveAll_eq_ok hc (fun e he => (hm e he).1) hok
  | false =>
    rw [serverGetAndUpdate_of_disabled henabled hm] at hok
    cases hok
    exact ⟨rfl, hc⟩

variable {channel : List (Message H V)} {answers : List (List V)}

theorem drain_append {items : List V}
    {d : Cache H V} (hdrain : drain cfg channel c = .ok (answers, c'))
    (hm : cfg.serverGetAndUpdate m c' = .ok (items, d)) :
    drain cfg (channel ++ [m]) c = .ok (answers ++ [items], d) := by
  induction channel generalizing c answers with
  | nil =>
    cases hdrain
    simp only [nil_append, drain, hm]
    rfl
  | cons first rest ih =>
    obtain ⟨⟨_, _⟩, hfirst, hdrain⟩ := bind_eq_ok.mp hdrain
    obtain ⟨⟨_, _⟩, hrest, hdrain⟩ := bind_eq_ok.mp hdrain
    cases hdrain
    simp only [cons_append, drain, hfirst, bind, Except.bind, ih hrest]
    rfl

theorem drain_append_eq_ok {d : Cache H V} (h : drain cfg (channel ++ [m]) c = .ok (answers, d)) :
    ∃ others items e, drain cfg channel c = .ok (others, e) ∧
      cfg.serverGetAndUpdate m e = .ok (items, d) := by
  induction channel generalizing c answers with
  | nil =>
    obtain ⟨⟨items, e⟩, hm, h⟩ := bind_eq_ok.mp h
    obtain ⟨⟨others, e'⟩, hrest, h⟩ := bind_eq_ok.mp h
    cases hrest
    cases h
    exact ⟨[], items, c, rfl, hm⟩
  | cons first rest ih =>
    obtain ⟨⟨answer, e⟩, hfirst, h⟩ := bind_eq_ok.mp h
    obtain ⟨⟨others, e'⟩, hrest, h⟩ := bind_eq_ok.mp h
    cases h
    obtain ⟨others', items, d, hothers, hm⟩ := ih hrest
    refine ⟨answer :: others', items, d, ?_, hm⟩
    simp only [drain, hfirst, bind, Except.bind, hothers]
    rfl

/-- What holds in every run: the engine's cache has the items of its keys, and so have the requests
that are sent. -/
structure Honest (cfg : Config H V) (s : System H V) : Prop where
  server : s.server.Holds cfg.content
  channel : ∀ m ∈ s.channel, m.Honest cfg
  calls : ∀ call ∈ s.calls, call.message.Honest cfg

theorem drain_eq_ok (hc : c.Holds cfg.content) (hchannel : ∀ m ∈ channel, m.Honest cfg)
    (hdrain : drain cfg channel c = .ok (answers, c')) :
    answers = channel.map (Message.originals cfg) ∧ c'.Holds cfg.content := by
  induction channel generalizing c answers with
  | nil =>
    cases hdrain
    exact ⟨rfl, hc⟩
  | cons first rest ih =>
    obtain ⟨⟨_, _⟩, hfirst, hdrain⟩ := bind_eq_ok.mp hdrain
    obtain ⟨⟨_, _⟩, hrest, hdrain⟩ := bind_eq_ok.mp hdrain
    cases hdrain
    obtain ⟨hhead, htail⟩ := forall_mem_cons.mp hchannel
    obtain ⟨rfl, he⟩ := serverGetAndUpdate_eq_ok hc hhead hfirst
    obtain ⟨rfl, hd⟩ := ih he htail hrest
    exact ⟨rfl, hd⟩

/-- A request that comes again is answered, and leaves the engine's cache as it was, iff it repeats
at the front end's cache. -/
theorem repeats_iff (hc : c.Holds cfg.content) (hm : m.Honest cfg) :
    (∃ c', cfg.serverGetAndUpdate m c = .ok (m.originals cfg, c') ∧
      c'.mapValues cfg.wraps = c.mapValues cfg.wraps) ↔ Repeats cfg m (c.mapValues cfg.wraps) := by
  cases henabled : cfg.enabled with
  | false =>
    refine ⟨fun _ hon => ?_, fun _ => ⟨c, serverGetAndUpdate_of_disabled henabled hm c, rfl⟩⟩
    rw [henabled] at hon
    cases hon
  | true =>
    unfold Repeats Config.serverGetAndUpdate
    rw [if_pos henabled, receiveAll_mapValues (size_wraps cfg)]
    constructor
    · rintro ⟨c', hok, hsame⟩ -
      rw [hok]
      exact ⟨_, congrArg (fun d => Except.ok (_, d)) hsame⟩
    · intro h
      obtain ⟨_, h⟩ := h henabled
      cases hall : receiveAll cfg.policy cfg.getItemSize m.items c with
      | error fault =>
        rw [hall] at h
        cases h
      | ok r =>
        rw [hall] at h
        obtain ⟨-, hsame⟩ := Prod.mk.inj (Except.ok.inj h)
        obtain ⟨hanswers, -⟩ := receiveAll_eq_ok hc (fun e he => (hm e he).1) hall
        exact ⟨r.2, by rw [← show r.1 = m.originals cfg from hanswers], hsame⟩

/-! ### Steps -/

section Calls

variable {requestId : String} {n : ℕ} {hashes : List H} {cancelled : Bool}

/-- What is not delivered changes the front end only. -/
theorem addRequest_undelivered (h : Undelivered cfg s requestId n hashes cancelled) :
    (s.addRequest cfg requestId n hashes cancelled).client =
      (cfg.clientGetAndUpdate hashes s.client).2 ∧
    (s.addRequest cfg requestId n hashes cancelled).channel = s.channel ∧
    (s.addRequest cfg requestId n hashes cancelled).server = s.server ∧
    (s.addRequest cfg requestId n hashes cancelled).calls = s.calls := by
  unfold System.addRequest
  cases hsent : cfg.clientGetAndUpdate hashes s.client with
  | mk sent client =>
    cases sent with
    | error fault => exact ⟨rfl, rfl, rfl, rfl⟩
    | ok sent =>
      unfold Undelivered at h
      rw [hsent] at h
      by_cases hid : System.firstId requestId n ∈ s.requestStates
      · simp [hid]
      · obtain rfl : cancelled = true := by simpa [hid] using h
        simp [hid]

/-- What is delivered is sent. -/
theorem addRequest_delivered (h : ¬ Undelivered cfg s requestId n hashes cancelled) :
    ∃ sent client, cfg.clientGetAndUpdate hashes s.client = (.ok sent, client) ∧
      s.addRequest cfg requestId n hashes cancelled =
        { client
          requestStates := insert (System.firstId requestId n) s.requestStates
          channel := s.channel ++ [⟨hashes.zip sent⟩]
          calls := s.calls ++ [⟨requestId, ⟨hashes.zip sent⟩, 1, n⟩]
          server := s.server } := by
  unfold Undelivered at h
  simp only [not_or, not_exists] at h
  obtain ⟨hok, hid, hcancelled⟩ := h
  cases hsent : cfg.clientGetAndUpdate hashes s.client with
  | mk sent client =>
    cases sent with
    | error fault => exact absurd (by rw [hsent]) (hok fault)
    | ok sent =>
      refine ⟨sent, client, rfl, ?_⟩
      unfold System.addRequest
      rw [hsent]
      simp only [hid, if_false, hcancelled]
      exact if_neg Bool.false_ne_true

end Calls

omit [DecidableEq H] in
/-- What becomes of a child: it is not sent, or sent once more. -/
theorem sendChild_cases (s : System H V) (call : PendingCall H V) (index : ℕ) (cancelled : Bool) :
    let id := Frontend.childRequestId call.next call.requestId
    let t := s.sendChild call index cancelled
    t.client = s.client ∧ t.server = s.server ∧
    ((id ∈ s.requestStates ∨ cancelled = true) ∧ t.channel = s.channel ∧
        t.calls = s.calls.eraseIdx index ∨
      (id ∉ s.requestStates ∧ cancelled = false) ∧ t.channel = s.channel ++ [call.message] ∧
        t.calls = s.calls.set index { call with next := call.next + 1 }) := by
  unfold System.sendChild
  by_cases hid : Frontend.childRequestId call.next call.requestId ∈ s.requestStates
  · simp [hid]
  · cases cancelled <;> simp [hid]

theorem Mirrored.congr (hclient : t.client = s.client) (hchannel : t.channel = s.channel)
    (hserver : t.server = s.server) : Mirrored cfg t ↔ Mirrored cfg s := by
  unfold Mirrored
  rw [hclient, hchannel, hserver]

section

variable (hm : Mirrored cfg s) (hs : Honest cfg s)
include hm hs

/-- A call keeps the caches mirrored iff it is delivered or changes nothing. -/
theorem Mirrored.addRequest_iff {requestId : String} {n : ℕ} {cancelled : Bool} :
    (Mirrored cfg (s.addRequest cfg requestId n hashes cancelled) ↔
      Keeps cfg s (.call requestId n hashes cancelled)) ∧
    (Honest cfg (s.addRequest cfg requestId n hashes cancelled)) := by
  obtain ⟨c, hdrain, hmirror⟩ := hm
  by_cases hun : Undelivered cfg s requestId n hashes cancelled
  · obtain ⟨hclient, hchannel, hserver, hcalls⟩ := addRequest_undelivered hun
    refine ⟨⟨?_, fun h => ?_⟩, ?_⟩
    · rintro ⟨_, hd, hd'⟩ -
      rw [hchannel, hserver] at hd
      cases hd.symm.trans hdrain
      rw [← hclient, ← hd', hmirror]
    · exact (Mirrored.congr (hclient.trans (h hun)) hchannel hserver).mpr ⟨c, hdrain, hmirror⟩
    · exact ⟨hserver ▸ hs.server, hchannel ▸ hs.channel, hcalls ▸ hs.calls⟩
  · obtain ⟨_, _, hok, heq⟩ := addRequest_delivered hun
    have hc : c.Holds cfg.content := (drain_eq_ok hs.server hs.channel hdrain).2
    rw [← hmirror] at hok
    obtain ⟨hhonest, c', hc', hserver⟩ := client_follows hc hok
    rw [heq]
    refine ⟨iff_of_true ⟨c', ?_, hc'⟩ fun h => absurd h hun, hs.server, ?_, ?_⟩
    · rw [map_append]
      exact drain_append hdrain hserver
    · exact forall_mem_append.mpr ⟨hs.channel, forall_mem_singleton.mpr hhonest⟩
    · exact forall_mem_append.mpr ⟨hs.calls, forall_mem_singleton.mpr hhonest⟩

/-- A child keeps the caches mirrored iff it is not sent or repeats. -/
theorem Mirrored.sendChild_iff {call : PendingCall H V} {index : ℕ} {cancelled : Bool}
    (hcall : s.calls[index]? = some call) :
    (Mirrored cfg (s.sendChild call index cancelled) ↔ Keeps cfg s (.child index cancelled)) ∧
    Honest cfg (s.sendChild call index cancelled) := by
  obtain ⟨c, hdrain, hmirror⟩ := hm
  have hhonest := hs.calls call (mem_of_getElem? hcall)
  obtain ⟨hclient, hserver, ⟨hun, hchannel, hcalls⟩ | ⟨⟨hid, hnot⟩, hchannel, hcalls⟩⟩ :=
    sendChild_cases s call index cancelled
  · refine ⟨iff_of_true ?_ fun call' hcall' hid hnot => ?_, hserver ▸ hs.server,
      hchannel ▸ hs.channel, fun m hm => ?_⟩
    · exact (Mirrored.congr hclient hchannel hserver).mpr ⟨c, hdrain, hmirror⟩
    · cases hcall.symm.trans hcall'
      rcases hun with hun | hun
      · exact absurd hun hid
      · rw [hun] at hnot
        cases hnot
    · rw [hcalls] at hm
      exact hs.calls m (mem_of_mem_eraseIdx hm)
  · refine ⟨?_, hserver ▸ hs.server, ?_, fun m hm => ?_⟩
    · have hc : c.Holds cfg.content := (drain_eq_ok hs.server hs.channel hdrain).2
      have hiff := repeats_iff hc hhonest
      rw [hmirror] at hiff
      constructor
      · rintro ⟨d, hd, hd'⟩ call' hcall' - -
        cases hcall.symm.trans hcall'
        rw [hchannel, hserver] at hd
        obtain ⟨_, _, _, hothers, hitems⟩ := drain_append_eq_ok hd
        cases hothers.symm.trans hdrain
        rw [(serverGetAndUpdate_eq_ok hc hhonest hitems).1] at hitems
        exact hiff.mp ⟨d, hitems, hd'.trans hclient⟩
      · intro h
        obtain ⟨d, hd, hd'⟩ := hiff.mpr (h call hcall hid hnot)
        refine ⟨d, ?_, hd'.trans hclient.symm⟩
        rw [hchannel, hserver, map_append]
        exact drain_append hdrain hd
    · rw [hchannel]
      exact forall_mem_append.mpr ⟨hs.channel, forall_mem_singleton.mpr hhonest⟩
    · rw [hcalls] at hm
      rcases mem_or_eq_of_mem_set hm with hm | rfl
      · exact hs.calls m hm
      · exact hhonest

/-- The engine answers the next request of the channel with the original items. -/
theorem Mirrored.engine (hchannel : s.channel = m :: channel) :
    ∃ server, cfg.serverGetAndUpdate m s.server = .ok (m.originals cfg, server) ∧
      Mirrored cfg { s with channel, server } ∧ Honest cfg { s with channel, server } := by
  obtain ⟨_, hdrain, hmirror⟩ := hm
  obtain ⟨hhead, htail⟩ := forall_mem_cons.mp (hchannel ▸ hs.channel)
  rw [hchannel] at hdrain
  obtain ⟨⟨_, server⟩, hfirst, hdrain⟩ := bind_eq_ok.mp hdrain
  obtain ⟨⟨_, d⟩, hrest, hdrain⟩ := bind_eq_ok.mp hdrain
  obtain ⟨hanswers, rfl⟩ := Prod.mk.inj (Except.ok.inj hdrain)
  obtain ⟨rfl, rfl⟩ := List.cons.inj hanswers
  exact ⟨server, hfirst, ⟨d, hrest, hmirror⟩,
    (serverGetAndUpdate_eq_ok hs.server hhead hfirst).2, htail, hs.calls⟩

/-- An event keeps the caches mirrored iff it satisfies what it has to. -/
theorem Mirrored.step_iff {e : Event H} (hstep : s.step cfg e = some t) :
    (Mirrored cfg t ↔ Keeps cfg s e) ∧ Honest cfg t := by
  cases e with
  | call requestId n hashes cancelled =>
    obtain ⟨-, hstep⟩ := Option.ite_none_right_eq_some.mp hstep
    cases hstep
    exact hm.addRequest_iff hs
  | child index cancelled =>
    unfold System.step at hstep
    dsimp only at hstep
    split at hstep
    · cases hstep
    · rename_i call hcall
      obtain ⟨-, hstep⟩ := Option.ite_none_right_eq_some.mp hstep
      cases hstep
      exact hm.sendChild_iff hs hcall
  | callEnds index =>
    cases hstep
    exact ⟨iff_of_true ((Mirrored.congr rfl rfl rfl).mpr hm) trivial, hs.server, hs.channel,
      fun call hcall => hs.calls call (mem_of_mem_eraseIdx hcall)⟩
  | finished requestId =>
    cases hstep
    exact ⟨iff_of_true ((Mirrored.congr rfl rfl rfl).mpr hm) trivial, hs.server, hs.channel,
      hs.calls⟩
  | engine =>
    unfold System.step at hstep
    dsimp only at hstep
    split at hstep
    · cases hstep
    · rename_i m channel hchannel
      obtain ⟨server, hserver, hmirrored, hhonest⟩ := hm.engine hs hchannel
      rw [hserver] at hstep
      cases hstep
      exact ⟨iff_of_true hmirrored trivial, hhonest⟩

/-! ### Runs -/

end

/-- The steps of the system. -/
def Step (cfg : Config H V) (s : System H V) (e : Event H) (t : System H V) : Prop :=
  s.step cfg e = some t

/-- The engine holds what was not sent of the next request of the channel, so it obtains the
original items. -/
def Answers (cfg : Config H V) (s : System H V) : Prop :=
  ∀ m channel, s.channel = m :: channel →
    ∃ server, cfg.serverGetAndUpdate m s.server = .ok (m.originals cfg, server)

theorem mirrored_init (cfg : Config H V) : Mirrored cfg (.init : System H V) :=
  ⟨.empty, rfl, rfl⟩

omit [DecidableEq H] in
theorem honest_init (cfg : Config H V) : Honest cfg (.init : System H V) where
  server := Cache.holds_empty cfg.content
  channel := nofun
  calls := nofun

variable {events : List (Event H)}

/-- Along a run whose states are mirrored the engine's cache has the items of its keys. -/
theorem honest_of_mirrored (run : Execution (Step cfg) .init events s)
    (h : ∀ before t, before <+: events → Execution (Step cfg) .init before t → Mirrored cfg t) :
    Honest cfg s := by
  induction run with
  | start => exact honest_init cfg
  | extend run last ih =>
    have hbefore := h _ _ (prefix_append _ _) run
    have hhonest := ih fun before t hinit => h before t (hinit.trans (prefix_append _ _))
    exact (hbefore.step_iff hhonest last).2

/-- Along a run whose events satisfy what they have to, the caches stay mirrored. -/
theorem mirrored_of_keeps (run : Execution (Step cfg) .init events s)
    (h : ∀ before e t u, before ++ [e] <+: events → Execution (Step cfg) .init before t →
      Step cfg t e u → Keeps cfg t e) : Mirrored cfg s ∧ Honest cfg s := by
  induction run with
  | start => exact ⟨mirrored_init cfg, honest_init cfg⟩
  | extend run last ih =>
    obtain ⟨hm, hs⟩ := ih fun before e t u hinit =>
      h before e t u (hinit.trans (prefix_append _ _))
    obtain ⟨hiff, hhonest⟩ := hm.step_iff hs last
    exact ⟨hiff.mpr (h _ _ _ _ prefix_rfl run last), hhonest⟩

/-- In a run the caches stay mirrored, and the engine obtains the original items of every request,
iff every event satisfies what it has to. -/
theorem mirrored_iff_of_run (cfg : Config H V) (events : List (Event H)) :
    (∀ before t, before <+: events → Execution (Step cfg) .init before t →
      Mirrored cfg t ∧ Answers cfg t) ↔
    ∀ before e t u, before ++ [e] <+: events → Execution (Step cfg) .init before t →
      Step cfg t e u → Keeps cfg t e := by
  constructor
  · intro h before e t u hinit run hstep
    have hbefore : before <+: events := (prefix_append _ _).trans hinit
    have hhonest := honest_of_mirrored run fun before' t' hinit' run' =>
      (h before' t' (hinit'.trans hbefore) run').1
    exact ((h before t hbefore run).1.step_iff hhonest hstep).1.mp
      (h _ u hinit (run.extend hstep)).1
  · intro h before t hinit run
    obtain ⟨hm, hs⟩ := mirrored_of_keeps run fun before' e t u hinit' =>
      h before' e t u (hinit'.trans hinit)
    refine ⟨hm, fun m channel hchannel => ?_⟩
    obtain ⟨server, hserver, -⟩ := hm.engine hs hchannel
    exact ⟨server, hserver⟩

section Example

/-- How many entries make room for `size`, if the sizes may sum up to `capacity`. -/
def room (capacity size : ℕ) : List ℕ → ℕ
  | [] => 0
  | s :: rest => if (s :: rest).sum + size ≤ capacity then 0 else room capacity size rest + 1

/-- Two items of size one find room. -/
def twoItems : Config ℕ ℕ where
  enabled := true
  policy :=
    { fits := fun size => size ≤ 2
      evictions := fun old size sizes => if old = some size then 0 else room 2 size sizes }
  getItemSize _ := 1
  content := id

/-- The id of the second call is in use. It is refused, but its item has been put into the front
end's cache, so the third call does not send it. -/
theorem not_answers_of_run : ∃ s : System ℕ ℕ, Execution (Step twoItems) .init
      [.call "a" 1 [7] false, .engine, .call "a" 1 [8] false, .call "b" 1 [8] false] s ∧
    s.channel = [⟨[(8, none)]⟩] ∧
    twoItems.serverGetAndUpdate ⟨[(8, none)]⟩ s.server = .error .keyError ∧
    ¬ Answers twoItems s := by
  obtain ⟨s, run, hchannel, hserver⟩ : ∃ s : System ℕ ℕ, Execution (Step twoItems) .init
      [.call "a" 1 [7] false, .engine, .call "a" 1 [8] false, .call "b" 1 [8] false] s ∧
      s.channel = [⟨[(8, none)]⟩] ∧
      twoItems.serverGetAndUpdate ⟨[(8, none)]⟩ s.server = .error .keyError :=
    ⟨_, (((Execution.single rfl).extend rfl).extend rfl).extend rfl, rfl, rfl⟩
  refine ⟨s, run, hchannel, hserver, fun h => ?_⟩
  obtain ⟨server, hok⟩ := h _ _ hchannel
  rw [hserver] at hok
  cases hok

end Example

end Multimodal
