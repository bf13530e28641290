import Mathlib.Data.List.TakeWhile
import MeshProxy.Fetch
import MeshProxy.Segments

/-!
# The node's own node_info

The first node_info of the burst is the node's own, and the config-only replay
is to keep it. The position is remembered when a frame is stored, and a frame
that does not fit is skipped: `own_nodeinfo_served_iff` says for which bursts
the remembered one is the first that was sent. What was stored depends on the
lengths alone (`fill`).
-/

namespace MeshProxy

-- ---------------------------------------------------------------------------
-- The greedy policy on a burst
-- ---------------------------------------------------------------------------

variable {fs sent : List Frame} {f g own : Frame}

theorem store_extends (fs : List Frame) (f : Frame) : fs <+: store fs f := by
  unfold store
  split
  · exact List.prefix_append _ _
  · exact List.prefix_rfl

theorem foldl_store_extends (fs sent : List Frame) : fs <+: sent.foldl store fs := by
  induction sent generalizing fs with
  | nil => exact List.prefix_rfl
  | cons f sent ih => exact (store_extends fs f).trans (ih _)

theorem fits_of_extends (h : fs <+: gs) (hf : Fits gs raw) : Fits fs raw := by
  obtain ⟨rest, rfl⟩ := h
  obtain ⟨hc, hu⟩ := hf
  simp only [List.length_append, List.map_append, List.sum_append] at hc hu
  exact ⟨by omega, by omega⟩

theorem mem_foldl_store :
    g ∈ sent.foldl store fs ↔
      g ∈ fs ∨ ∃ pre post, sent = pre ++ g :: post ∧ Fits (pre.foldl store fs) g.bytes := by
  constructor
  · intro hg
    induction sent generalizing fs with
    | nil => exact .inl hg
    | cons f sent ih =>
      rcases ih hg with hin | ⟨pre, post, rfl, hfits⟩
      · unfold store at hin
        split at hin
        · rename_i hfits
          rcases List.mem_append.mp hin with hin | hin
          · exact .inl hin
          · rw [List.mem_singleton] at hin
            subst hin
            exact .inr ⟨[], sent, rfl, hfits⟩
        · exact .inl hin
      · exact .inr ⟨f :: pre, post, rfl, hfits⟩
  · rintro (hg | ⟨pre, post, rfl, hfits⟩)
    · exact (foldl_store_extends fs sent).subset hg
    · rw [List.foldl_append, List.foldl_cons]
      apply (foldl_store_extends _ post).subset
      rw [store, if_pos hfits]
      simp

theorem cut_after (hpre : ∀ f ∈ pre, f.isNodeInfo = false) (hg : g.isNodeInfo = true)
    (h : pre ++ own :: post = front ++ g :: back) :
    (front = pre ∧ g = own ∧ back = post) ∨
      ∃ mid, front = pre ++ own :: mid ∧ post = mid ++ g :: back := by
  rcases List.append_eq_append_iff.mp h with ⟨mid, rfl, hmid⟩ | ⟨mid, rfl, hmid⟩
  · cases mid with
    | nil =>
      cases hmid
      exact .inl ⟨List.append_nil _, rfl, rfl⟩
    | cons x mid =>
      cases hmid
      exact .inr ⟨mid, rfl, rfl⟩
  · cases mid with
    | nil =>
      cases hmid
      exact .inl ⟨(List.append_nil _).symm, rfl, rfl⟩
    | cons x mid =>
      cases hmid
      have hx := hpre g (by simp)
      rw [hg] at hx
      cases hx

-- ---------------------------------------------------------------------------
-- What the lengths decide
-- ---------------------------------------------------------------------------

def lengths (fs : List Frame) : List Nat := fs.map fun f => f.bytes.length

/-- How many frames and bytes are stored after one more frame of this length. -/
def fillStep (room : Nat × Nat) (len : Nat) : Nat × Nat :=
  if room.1 < configCacheMaxFrames ∧ room.2 + len ≤ configCacheArenaBytes then
    (room.1 + 1, room.2 + len)
  else room

def fill (lens : List Nat) : Nat × Nat := lens.foldl fillStep (0, 0)

def Lands (lens : List Nat) (len : Nat) : Prop :=
  (fill lens).1 < configCacheMaxFrames ∧ (fill lens).2 + len ≤ configCacheArenaBytes

instance : Decidable (Lands lens len) := inferInstanceAs (Decidable (_ ∧ _))

/-- Of the node_infos of a burst the first one finds room, or none does. -/
def OwnLands (sent : List Frame) : Prop :=
  ∀ pre own post, sent = pre ++ own :: post → own.isNodeInfo = true →
    (∀ f ∈ pre, f.isNodeInfo = false) →
    Lands (lengths pre) own.bytes.length ∨
      ∀ mid f rest, post = mid ++ f :: rest → f.isNodeInfo = true →
        ¬ Lands (lengths (pre ++ own :: mid)) f.bytes.length

theorem foldl_fillStep (sent fs : List Frame) :
    (lengths sent).foldl fillStep (fs.length, (lengths fs).sum) =
      ((sent.foldl store fs).length, (lengths (sent.foldl store fs)).sum) := by
  induction sent generalizing fs with
  | nil => rfl
  | cons f sent ih =>
    have hstep : fillStep (fs.length, (lengths fs).sum) f.bytes.length =
        ((store fs f).length, (lengths (store fs f)).sum) := by
      by_cases hf : Fits fs f.bytes
      · have hfill : fillStep (fs.length, (lengths fs).sum) f.bytes.length =
            (fs.length + 1, (lengths fs).sum + f.bytes.length) := if_pos hf
        rw [hfill, store, if_pos hf]
        simp [lengths]
      · have hfill : fillStep (fs.length, (lengths fs).sum) f.bytes.length =
            (fs.length, (lengths fs).sum) := if_neg hf
        rw [hfill, store, if_neg hf]
    rw [List.foldl_cons, ← ih, ← hstep]
    rfl

theorem lands_iff : Lands (lengths sent) raw.length ↔ Fits (sent.foldl store []) raw := by
  have h : fill (lengths sent) =
      ((sent.foldl store []).length, (lengths (sent.foldl store [])).sum) := foldl_fillStep sent []
  rw [Lands, h]
  rfl

theorem foldl_fillStep_le (lens : List Nat) (room : Nat × Nat) :
    (lens.foldl fillStep room).1 ≤ room.1 + lens.length ∧
      (lens.foldl fillStep room).2 ≤ room.2 + lens.sum := by
  induction lens generalizing room with
  | nil => exact ⟨Nat.le_refl _, Nat.le_refl _⟩
  | cons len lens ih =>
    have hstep : (fillStep room len).1 ≤ room.1 + 1 ∧ (fillStep room len).2 ≤ room.2 + len := by
      unfold fillStep
      split
      · exact ⟨Nat.le_refl _, Nat.le_refl _⟩
      · exact ⟨Nat.le_add_right _ _, Nat.le_add_right _ _⟩
    obtain ⟨hcount, hbytes⟩ := ih (fillStep room len)
    simp only [List.foldl_cons, List.length_cons, List.sum_cons]
    omega

theorem ownLands_of_fits (hcount : sent.length ≤ configCacheMaxFrames)
    (hbytes : (lengths sent).sum ≤ configCacheArenaBytes) : OwnLands sent := by
  rintro pre own post rfl - -
  obtain ⟨hn, hu⟩ := foldl_fillStep_le (lengths pre) (0, 0)
  simp only [lengths, List.length_append, List.length_cons, List.map_append, List.map_cons,
    List.sum_append, List.sum_cons, List.length_map] at hcount hbytes hn hu
  exact .inl ⟨Nat.lt_of_le_of_lt hn (by omega), Nat.le_trans (Nat.add_le_add_right hu _) (by omega)⟩

theorem first_stored (hpre : ∀ f ∈ pre, f.isNodeInfo = false) (hown : own.isNodeInfo = true)
    (hfits : Fits (pre.foldl store []) own.bytes) :
    ((pre ++ own :: post).foldl store []).find? Frame.isNodeInfo = some own := by
  have hcut : pre.foldl store [] ++ [own] <+: (pre ++ own :: post).foldl store [] := by
    rw [List.foldl_append, List.foldl_cons, store, if_pos hfits]
    exact foldl_store_extends _ _
  have hno : ∀ f ∈ pre.foldl store [], f.isNodeInfo = false := by
    intro f hf
    rcases mem_foldl_store.mp hf with hnil | ⟨front, back, rfl, -⟩
    · cases hnil
    · exact hpre f (by simp)
  refine hcut.find?_eq_some (List.find?_eq_some_iff_append.mpr ⟨hown, _, [], rfl, ?_⟩)
  intro f hf
  rw [hno f hf]
  rfl

/-- A first node_info that finds no room is not stored, not even when the same
bytes come again. -/
theorem first_not_stored (hpre : ∀ f ∈ pre, f.isNodeInfo = false) (hown : own.isNodeInfo = true)
    (hout : ¬ Fits (pre.foldl store []) own.bytes) :
    own ∉ (pre ++ own :: post).foldl store [] := by
  intro hin
  obtain ⟨front, back, hcut, hfits⟩ := (mem_foldl_store.mp hin).resolve_left (by simp)
  refine hout (fits_of_extends ?_ hfits)
  rcases cut_after hpre hown hcut with ⟨rfl, -, -⟩ | ⟨mid, rfl, -⟩
  · exact List.prefix_rfl
  · rw [List.foldl_append]
    exact foldl_store_extends _ _

theorem first_stored_iff :
    (∀ g, (sent.foldl store []).find? Frame.isNodeInfo = some g →
      sent.find? Frame.isNodeInfo = some g) ↔ OwnLands sent := by
  constructor
  · rintro hfirst pre own post rfl hown hpre
    by_contra hno
    simp only [not_or, not_forall, not_not] at hno
    obtain ⟨hout, mid, f, rest, rfl, hf, hlands⟩ := hno
    -- some node_info is stored, and by assumption it is the one that found no room
    have hstored : f ∈ (pre ++ own :: (mid ++ f :: rest)).foldl store [] :=
      mem_foldl_store.mpr (.inr ⟨pre ++ own :: mid, rest, by simp, lands_iff.mp hlands⟩)
    obtain ⟨g, hg⟩ := Option.isSome_iff_exists.mp (List.find?_isSome.mpr ⟨f, hstored, hf⟩)
    have hsent : (pre ++ own :: (mid ++ f :: rest)).find? Frame.isNodeInfo = some own :=
      List.find?_eq_some_iff_append.mpr
        ⟨hown, pre, mid ++ f :: rest, rfl, fun x hx => by simp [hpre x hx]⟩
    obtain rfl : g = own := Option.some.inj ((hfirst g hg).symm.trans hsent)
    exact first_not_stored hpre hown (fun hin => hout (lands_iff.mpr hin)) (List.mem_of_find?_eq_some hg)
  · intro hlands g hg
    have hinfo : g.isNodeInfo = true := List.find?_some hg
    obtain ⟨front, back, hsent, hfits⟩ : ∃ front back, sent = front ++ g :: back ∧
        Fits (front.foldl store []) g.bytes :=
      (mem_foldl_store.mp (List.mem_of_find?_eq_some hg)).resolve_left (by simp)
    obtain ⟨own, hown⟩ : ∃ own, sent.find? Frame.isNodeInfo = some own :=
      Option.isSome_iff_exists.mp (List.find?_isSome.mpr ⟨g, by simp [hsent], hinfo⟩)
    obtain ⟨howninfo, pre, post, rfl, hpre⟩ := List.find?_eq_some_iff_append.mp hown
    have hpre' : ∀ f ∈ pre, f.isNodeInfo = false := fun f hf => by simpa using hpre f hf
    rw [hown]
    rcases hlands pre own post rfl howninfo hpre' with hin | hnone
    · -- nothing before it is a node_info, so it is the first stored one
      rw [← first_stored hpre' howninfo (lands_iff.mp hin), hg]
    · rcases cut_after hpre' hinfo hsent with ⟨-, rfl, -⟩ | ⟨mid, rfl, rfl⟩
      · rfl
      · exact absurd (lands_iff.mpr hfits) (hnone mid g back rfl hinfo)

-- ---------------------------------------------------------------------------
-- The cache of a burst
-- ---------------------------------------------------------------------------

/-- A node_info of the config-only replay is the first one of the burst. -/
def OwnServed (c : ConfigCache) (sent : List Frame) : Prop :=
  ∀ i ∈ segment c meshNonceOnlyConfig 0, (c.frame i).isNodeInfo = true →
    sent.find? Frame.isNodeInfo = some (c.frame i)

theorem find_nodeInfo :
    fs.find? Frame.isNodeInfo = some g ↔ ∃ i, firstNodeInfo fs = some i ∧ fs[i]? = some g := by
  constructor
  · intro hg
    obtain ⟨hinfo, i, hi, rfl, hbefore⟩ := List.find?_eq_some_iff_getElem.mp hg
    refine ⟨i, List.findIdx?_eq_some_iff_getElem.mpr ⟨hi, hinfo, ?_⟩, List.getElem?_eq_getElem hi⟩
    intro j hj
    simpa using hbefore j hj
  · rintro ⟨i, hfirst, hg⟩
    obtain ⟨hi, hinfo, hbefore⟩ := List.findIdx?_eq_some_iff_getElem.mp hfirst
    obtain ⟨-, rfl⟩ := List.getElem?_eq_some_iff.mp hg
    exact List.find?_eq_some_iff_getElem.mpr ⟨hinfo, i, hi, rfl, fun j hj => by simpa using hbefore j hj⟩

theorem Represents.ownServed_iff {c : ConfigCache} (h : Represents c (sent.foldl store [])) :
    OwnServed c sent ↔ OwnLands sent := by
  rw [← first_stored_iff]
  constructor
  · intro hserved g hg
    obtain ⟨i, hfirst, hi⟩ := find_nodeInfo.mp hg
    obtain ⟨⟨f, hf⟩, -⟩ := both_served.mpr hfirst
    have hframe := h.frame_eq hi
    have hown := hserved i (h.mem_segment.mpr ⟨f, hf⟩) (by rw [hframe]; exact List.find?_some hg)
    rwa [hframe] at hown
  · intro hfirst i hi hinfo
    obtain ⟨f, hf⟩ := h.mem_segment.mp hi
    rw [h.frame_eq hf.stored] at hinfo ⊢
    exact hfirst f (find_nodeInfo.mpr ⟨i, hf.config rfl hinfo, hf.stored⟩)

-- ---------------------------------------------------------------------------
-- The burst of a run
-- ---------------------------------------------------------------------------

section Run

variable {κ : Type} (p : Platform) {s s' : Proxy κ} {e : Event κ} {es : List (Event κ)}

instance : Decidable (Terminates p nonce payload) := inferInstanceAs (Decidable (_ = _))

/-- The frames that the session consumed while it was FETCHING, its own
terminator apart. -/
def sentFrames (nonce : UInt32) (es : List (Event κ)) : List Frame :=
  ((payloads es).takeWhile fun pl => !decide (Terminates p nonce pl)).filterMap (burstFrame p)

theorem sentFrames_quiet (he : ∀ payload, e ≠ Event.uartFrame payload) :
    sentFrames p nonce (es ++ [e]) = sentFrames p nonce es := by
  rw [sentFrames, payloads_quiet he, sentFrames]

theorem sentFrames_open (hno : ∀ pl ∈ payloads es, ¬ Terminates p nonce pl) :
    (sentFrames p nonce es).foldl store [] = burst p (payloads es) := by
  rw [sentFrames, List.takeWhile_eq_self_iff.mpr fun pl hpl => by simpa using hno pl hpl]
  rfl

theorem sentFrames_closed (hterm : ∃ pl ∈ payloads (es ++ [.uartFrame payload]), Terminates p nonce pl) :
    sentFrames p nonce (es ++ [.uartFrame payload]) = sentFrames p nonce es := by
  rw [payloads_frame] at hterm
  unfold sentFrames
  rw [payloads_frame, List.takeWhile_append]
  split
  · rename_i hall
    have hself := (List.takeWhile_prefix _).eq_of_length hall
    have hopen := List.takeWhile_eq_self_iff.mp hself
    obtain ⟨pl, hpl, hpt⟩ := hterm
    rcases List.mem_append.mp hpl with hpl | hpl
    · have hpass := hopen pl hpl
      simp [hpt] at hpass
    · rw [List.mem_singleton] at hpl
      subst hpl
      rw [hself]
      simp [hpt]
  · rfl

theorem MainStep.represents (h : Represents s.cache s.cache.frames) (hstep : MainStep p s s') :
    Represents s'.cache s'.cache.frames := by
  cases hstep with
  | cacheBegun => exact (Represents.empty s.cache).self
  | _ => exact h

theorem MainStep.cache_eq (hmain : s.main = .start .armKeepalive ∨ s.main = .start .done)
    (hstep : MainStep p s s') : s'.cache = s.cache := by
  cases hstep with
  | cacheBegun _ hm => simp [hm] at hmain
  | _ => rfl

variable [DecidableEq κ]

theorem FrameStep.represents (h : Represents s.cache s.cache.frames)
    (hstep : FrameStep p s payload s') : Represents s'.cache s'.cache.frames := by
  cases hstep with
  | undecodable | routed => exact h
  | stored => exact h.add.self
  | closed => exact h.markReady.self

theorem step_represents (h : Represents s.cache s.cache.frames) :
    Represents (s.step p e).1.cache (s.step p e).1.cache.frames := by
  have hstep := proxy_step p s e
  generalize (s.step p e).1 = s' at hstep ⊢
  cases hstep with
  | frame _ _ hf => exact hf.represents p h
  | deaf => exact h
  | main hm => exact hm.represents p h
  | quiet _ hq =>
    rw [hq.cache]
    exact h

structure Captured (nonce : UInt32) (h : List (Event κ)) (s : Proxy κ) : Prop where
  fetch : Fetching p nonce h s
  represents : Represents s.cache s.cache.frames
  frames : s.cache.frames = (sentFrames p nonce h).foldl store []

theorem Captured.frames_closed (hc : Captured p nonce h s) (hstep : FrameStep p s payload s')
    (hterm : ∃ pl ∈ payloads (h ++ [.uartFrame payload]), Terminates p nonce pl) :
    s'.cache.frames = s.cache.frames := by
  cases hstep with
  | undecodable | routed | closed => rfl
  | stored info hd hf hv hn =>
    rw [hc.fetch.own] at hn
    have hold : ¬ ∃ pl ∈ payloads h, Terminates p nonce pl := by
      intro hold
      have hlive := hc.fetch.closed hold
      rw [hf] at hlive
      cases hlive
    obtain ⟨pl, hpl, hpt⟩ := hterm
    rw [payloads_frame, List.mem_append, List.mem_singleton] at hpl
    rcases hpl with hpl | rfl
    · exact absurd ⟨pl, hpl, hpt⟩ hold
    · exact absurd hpt hn

theorem step_captured (hc : Captured p nonce h s) (he : s.Enabled e) :
    Captured p nonce (h ++ [e]) (s.step p e).1 := by
  have hfetch := step_fetching p hc.fetch he
  have hrep := step_represents p (e := e) hc.represents
  have hstep := proxy_step p s e
  generalize (s.step p e).1 = s' at hfetch hrep hstep ⊢
  refine ⟨hfetch, hrep, ?_⟩
  by_cases hterm : ∃ pl ∈ payloads (h ++ [e]), Terminates p nonce pl
  · cases hstep with
    | frame payload hcb hf =>
      rw [hc.frames_closed p hf hterm, sentFrames_closed p hterm, hc.frames]
    | deaf payload hcb =>
      rw [hc.fetch.receiving] at hcb
      cases hcb
    | main hm =>
      rw [hm.cache_eq p hc.fetch.main, sentFrames_quiet p (by simp), hc.frames]
    | quiet hse hq =>
      have hquiet : ∀ payload, e ≠ .uartFrame payload := by
        rintro payload rfl
        exact hse trivial
      rw [hq.cache, sentFrames_quiet p hquiet, hc.frames]
  · have hno : ∀ pl ∈ payloads (h ++ [e]), ¬ Terminates p nonce pl :=
      fun pl hpl hpt => hterm ⟨pl, hpl, hpt⟩
    rw [(hfetch.opened hno).2, sentFrames_open p hno]

theorem represents_reachable (hr : s.Reachable p) : Represents s.cache s.cache.frames :=
  reachable_invariant p (J := fun s : Proxy κ => Represents s.cache s.cache.frames) hr
    (Represents.empty {}).self fun _ _ _ _ h => step_represents p h

theorem exec_captured (hr : s.Reachable p) (hm : s.main = .start .setFetching)
    (ha : (proxyMachine p κ).Admits ((proxyMachine p κ).next s .mainStep) es) :
    Captured p s.upstream.nonce es
      ((proxyMachine p κ).exec ((proxyMachine p κ).next s .mainStep) es) := by
  have hfetch := fetching_start p (inv_reachable p hr) (begun_reachable p hr) hm
  have hrep := step_represents p (e := .mainStep) (represents_reachable p hr)
  refine Machine.history_invariant (I := Captured p s.upstream.nonce)
    (fun _ _ _ he h => step_captured p h he) ha ⟨hfetch, hrep, (hfetch.opened ?_).2⟩
  intro pl hpl
  cases hpl

/-- From FETCHING on, in every state of a run: a node_info that a config-only
replay would serve is the first one consumed, exactly when the lengths of the
burst let that one in, or no node_info at all. -/
theorem own_nodeinfo_served_iff (hr : s.Reachable p) (hm : s.main = .start .setFetching)
    (es : List (Event κ))
    (ha : (proxyMachine p κ).Admits ((proxyMachine p κ).next s .mainStep) es) :
    OwnServed ((proxyMachine p κ).exec ((proxyMachine p κ).next s .mainStep) es).cache
        (sentFrames p s.upstream.nonce es) ↔
      OwnLands (sentFrames p s.upstream.nonce es) := by
  have hc := exec_captured p hr hm ha
  have hrep := hc.represents
  rw [hc.frames] at hrep
  exact hrep.ownServed_iff

end Run

def twoInfos : List (Event Nat) :=
  [.uartFrame (paddedFrame 0x22 125), .uartFrame (paddedFrame 0x22 0), .uartFrame [0x38, 9]]

theorem own_nodeinfo_served_twoInfos :
    OwnServed ((proxyMachine (paddedPlatform 9) Nat).exec
        ((proxyMachine (paddedPlatform 9) Nat).next
          ((proxyMachine (paddedPlatform 9) Nat).exec .boot sentRun) .mainStep) twoInfos).cache
      (sentFrames (paddedPlatform 9) 9 twoInfos) :=
  (own_nodeinfo_served_iff (paddedPlatform 9) ⟨sentRun, by decide, rfl⟩ (by decide) twoInfos
    (by decide +kernel)).mpr (ownLands_of_fits (by decide +kernel) (by decide +kernel))

-- ---------------------------------------------------------------------------
-- A burst that loses it
-- ---------------------------------------------------------------------------

/-- 31 channels of 128 bytes, which leave 128 bytes of the arena. -/
def channels : List Frame := List.replicate 31 ⟨paddedFrame 0x52 124, .other 10⟩

def ownInfo : Frame := ⟨paddedFrame 0x22 125, .nodeInfo⟩

def otherInfo : Frame := ⟨paddedFrame 0x22 0, .nodeInfo⟩

/-- The node's own node_info has 129 bytes, that of another node 4. -/
def overflowBurst : List (Event Nat) :=
  (channels ++ [ownInfo, otherInfo]).map (fun f => .uartFrame f.bytes) ++ [.uartFrame [0x38, 9]]

theorem sent_overflowBurst :
    sentFrames (paddedPlatform 9) 9 overflowBurst = channels ++ [ownInfo, otherInfo] := by
  decide +kernel

theorem other_nodeinfo_served :
    (proxyMachine (paddedPlatform 9) Nat).Admits .boot (sentRun ++ .mainStep :: overflowBurst) ∧
      ¬ OwnServed
        ((proxyMachine (paddedPlatform 9) Nat).exec .boot (sentRun ++ .mainStep :: overflowBurst)).cache
        (sentFrames (paddedPlatform 9) 9 overflowBurst) := by
  have hadmits : (proxyMachine (paddedPlatform 9) Nat).Admits .boot
      (sentRun ++ .mainStep :: overflowBurst) := by decide +kernel
  refine ⟨hadmits, ?_⟩
  obtain ⟨hsent, -, hburst⟩ := (proxyMachine (paddedPlatform 9) Nat).along_append.mp hadmits
  have hc := exec_captured (paddedPlatform 9) ⟨sentRun, hsent, rfl⟩ (by decide) hburst
  have hrep := hc.represents
  rw [hc.frames] at hrep
  rw [Machine.exec_append, Machine.exec_cons]
  intro hserved
  have hlands : OwnLands (channels ++ [ownInfo, otherInfo]) :=
    sent_overflowBurst ▸ hrep.ownServed_iff.mp hserved
  have hchannels : ∀ f ∈ channels, f.isNodeInfo = false := by
    intro f hf
    rw [List.eq_of_mem_replicate hf]
    rfl
  rcases hlands channels ownInfo [otherInfo] rfl rfl hchannels with hin | hnone
  · exact absurd hin (by decide +kernel)
  · exact hnone [] otherInfo [] rfl rfl (by decide +kernel)

end MeshProxy
