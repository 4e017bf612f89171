/-
  Why the fixpoint of phase 2 of a tick ends (`construct_causal_links_and_commit_batch`,
  src/mallory/mediator/src/history/timeline.rs).

  Phase 2 walks each process forward from the event it resumes after up to its last
  needed event; an event it walks that is the target of a link raises the last needed
  event of the link's source's process to the source.  It ends when every process has
  walked up to its last needed event.

  The events still to walk, after the event each process resumes after, are the
  measure of both loops (`pending`).  A turn of the inner loop on a process that is not
  done walks up to its last needed event, which is an event of its timeline: the
  measure goes down (`phase_two_turn_spec`).  So the inner loop on such a process
  lowers it, and a pass of the outer loop that does not start done lowers it too, since
  a process that is not done stays so until its own inner loop.  What makes the last
  needed events events of the timelines is `PhaseTwoInv`: a last needed event that is
  not where its process resumes is an event of its timeline, and the source of every
  link is an event of its timeline or not after where its process resumes.

  * `phase_two_spec`: from a state with the invariant, and more turns than events,
    phase 2 ends with every process resumed after its last needed event, or panics for
    a target whose source is not known;
  * `TurnReach`: the states the turns of phase 2 reach, in any order of the processes;
    each has the invariant when the first does (`TurnReach.inv`).
-/
import Mathlib
import Abstraktor.Lib.Counter
import Abstraktor.Lib.SortedMap
import Abstraktor.Mediator.Event
import Abstraktor.Mediator.CommitManager
import Abstraktor.Mediator.Timeline

namespace Abstraktor.Mediator

open LamportEvent Counter

/-! ## The events still to walk -/

/-- The events of all the timelines. -/
def all_events (events : SortedMap ℕ (SortedMap LamportEvent Unit)) : List LamportEvent :=
  events.toList.flatMap fun e => e.2.keys

/-- The events after the event their process resumes after. -/
def pending (events : SortedMap ℕ (SortedMap LamportEvent Unit))
    (resume_with : SortedMap ℕ LamportEvent) : ℕ :=
  ((all_events events).filter fun e => (resume_with.get? e.proc).all (· < e)).length

/-- Every entry of `m` is in `m'`, at the same event or a later one. -/
def Raised (m m' : SortedMap ℕ LamportEvent) : Prop :=
  ∀ p a, m.get? p = some a → ∃ b, m'.get? p = some b ∧ a ≤ b

theorem Raised.refl (m : SortedMap ℕ LamportEvent) : Raised m m :=
  fun _ a h => ⟨a, h, le_rfl⟩

theorem Raised.trans {m m' m'' : SortedMap ℕ LamportEvent} (h : Raised m m')
    (h' : Raised m' m'') : Raised m m'' := by
  intro p a ha
  obtain ⟨b, hb, hab⟩ := h p a ha
  obtain ⟨c, hc, hbc⟩ := h' p b hb
  exact ⟨c, hc, hab.trans hbc⟩

/-- Raising one entry to a later event. -/
theorem Raised.insert {m : SortedMap ℕ LamportEvent} {p : ℕ} {a b : LamportEvent}
    (ha : m.get? p = some a) (hab : a ≤ b) : Raised m (m.insert p b) := by
  intro q c hc
  by_cases hq : q = p
  · subst hq
    rw [ha] at hc
    cases hc
    exact ⟨b, SortedMap.get?_insert_self _ _ _, hab⟩
  · exact ⟨c, by rw [SortedMap.get?_insert_ne _ _ hq, hc], le_rfl⟩

theorem num_events_eq (t : DynamicTimeline) : t.num_events = (all_events t.events).length := by
  -- the count threads an accumulator
  have hfold : ∀ (l : List (ℕ × SortedMap LamportEvent Unit)) (n : ℕ),
      l.foldl (fun n e => n + e.2.keys.length) n = n + (l.flatMap fun e => e.2.keys).length := by
    intro l
    induction l with
    | nil => simp
    | cons e l ih =>
      intro n
      rw [List.foldl_cons, ih, List.flatMap_cons, List.length_append, Nat.add_assoc]
  rw [DynamicTimeline.num_events, hfold, Nat.zero_add]
  rfl

theorem mem_all_events {events : SortedMap ℕ (SortedMap LamportEvent Unit)} {e : LamportEvent} :
    e ∈ all_events events ↔ ∃ p, e ∈ events.members p := by
  simp only [all_events, List.mem_flatMap, SortedMap.members]
  constructor
  · rintro ⟨⟨p, tl⟩, hp, he⟩
    exact ⟨p, by rw [SortedMap.mem_toList.1 hp]; exact he⟩
  · rintro ⟨p, hp⟩
    cases h : events.get? p with
    | none => rw [h] at hp; exact absurd hp List.not_mem_nil
    | some tl => exact ⟨(p, tl), SortedMap.mem_toList.2 h, by rw [h] at hp; exact hp⟩

section Pending

variable {events : SortedMap ℕ (SortedMap LamportEvent Unit)} {r r' : SortedMap ℕ LamportEvent}

theorem pending_le_length (events : SortedMap ℕ (SortedMap LamportEvent Unit))
    (r : SortedMap ℕ LamportEvent) : pending events r ≤ (all_events events).length :=
  List.length_filter_le _ _

/-- What is still to walk after resuming later was still to walk before. -/
theorem pending_sublist (h : Raised r r') :
    ((all_events events).filter fun e => (r'.get? e.proc).all (· < e)).Sublist
      ((all_events events).filter fun e => (r.get? e.proc).all (· < e)) := by
  refine List.monotone_filter_right _ fun e he => ?_
  cases ha : r.get? e.proc with
  | none => rfl
  | some a =>
    obtain ⟨b, hb, hab⟩ := h _ a ha
    rw [hb] at he
    simpa using lt_of_le_of_lt hab (by simpa using he)

/-- Resuming later leaves no more events to walk. -/
theorem pending_mono (h : Raised r r') : pending events r' ≤ pending events r :=
  (pending_sublist h).length_le

/-- Resuming past an event of a timeline leaves fewer events to walk. -/
theorem pending_lt (h : Raised r r') {q : ℕ} {a b x : LamportEvent} (ha : r.get? q = some a)
    (hb : r'.get? q = some b) (hx : x ∈ events.members q) (hxq : x.proc = q) (hax : a < x)
    (hxb : x ≤ b) : pending events r' < pending events r := by
  have hsub : List.Sublist ((all_events events).filter fun e => (r'.get? e.proc).all (· < e))
      ((all_events events).filter fun e => (r.get? e.proc).all (· < e)) := pending_sublist h
  -- `x` is still to walk before, and no more after
  have hx_old : x ∈ (all_events events).filter fun e => (r.get? e.proc).all (· < e) :=
    List.mem_filter.2 ⟨mem_all_events.2 ⟨q, hx⟩, by simp [hxq, ha, hax]⟩
  have hx_new : x ∉ (all_events events).filter fun e => (r'.get? e.proc).all (· < e) := by
    rw [List.mem_filter]
    simp [hxq, hb, not_lt.2 hxb]
  exact lt_of_le_of_ne hsub.length_le fun hlen =>
    hx_new ((hsub.eq_of_length hlen) ▸ hx_old)

end Pending

/-! ## The invariant of phase 2 -/

section Invariant

variable (procs : List ℕ) (events : SortedMap ℕ (SortedMap LamportEvent Unit))

/-- Every last needed event is of a process walked, not before the event that process
    resumes after, and an event of its timeline unless it is that event. -/
def NeededOk (resume_with last_needed_ev : SortedMap ℕ LamportEvent) : Prop :=
  ∀ p e, last_needed_ev.get? p = some e → p ∈ procs ∧
    ∃ r, resume_with.get? p = some r ∧ r ≤ e ∧ (r = e ∨ e ∈ events.members p)

/-- The source of every link is of a process walked, and an event of its timeline unless
    it is not after the event that process resumes after. -/
def SourcesOk (resume_with : SortedMap ℕ LamportEvent) (links : ℕ → Option CausalLink) : Prop :=
  ∀ i l, links i = some l → l.source.proc ∈ procs ∧
    (l.source ∈ events.members l.source.proc ∨
      ∃ r, resume_with.get? l.source.proc = some r ∧ l.source ≤ r)

end Invariant

/-- What holds of the state of phase 2 over the processes `procs` before every step. -/
structure PhaseTwoInv (procs : List ℕ) (s : PhaseTwo) : Prop where
  timelines : ∀ p ∈ procs, (s.tl.events.get? p).isSome
  events_proc : ∀ p e, e ∈ s.tl.events.members p → e.proc = p
  resume : ∀ p ∈ procs, (s.resume_with.get? p).isSome
  resume_proc : ∀ p r, s.resume_with.get? p = some r → r.proc = p
  needed : NeededOk procs s.tl.events s.resume_with s.last_needed_ev
  sources : SourcesOk procs s.tl.events s.resume_with s.tl.causal_links

/-- Every link is one that was there, with its source, maybe with a target now. -/
def SameSources (links links' : ℕ → Option CausalLink) : Prop :=
  ∀ i l', links' i = some l' → ∃ l, links i = some l ∧ l.source = l'.source

section Links

variable {procs : List ℕ} {events : SortedMap ℕ (SortedMap LamportEvent Unit)}
  {r r' : SortedMap ℕ LamportEvent} {links links' links'' : ℕ → Option CausalLink}

theorem SameSources.refl (links : ℕ → Option CausalLink) : SameSources links links :=
  fun _ l h => ⟨l, h, rfl⟩

theorem SameSources.trans (h : SameSources links links') (h' : SameSources links' links'') :
    SameSources links links'' := by
  intro i l'' hl''
  obtain ⟨l', hl', hs'⟩ := h' i l'' hl''
  obtain ⟨l, hl, hs⟩ := h i l' hl'
  exact ⟨l, hl, hs.trans hs'⟩

/-- A link given a target keeps its source. -/
theorem SameSources.update {i : ℕ} {l l' : CausalLink} (hl : links i = some l)
    (hs : l.source = l'.source) : SameSources links (Function.update links i (some l')) := by
  intro j l'' hj
  by_cases hji : j = i
  · subst hji
    rw [Function.update_self] at hj
    cases hj
    exact ⟨l, hl, hs⟩
  · rw [Function.update_of_ne hji] at hj
    exact ⟨l'', hj, rfl⟩

theorem SourcesOk.of_sameSources (h : SourcesOk procs events r links)
    (hs : SameSources links links') : SourcesOk procs events r links' := by
  intro i l' hl'
  obtain ⟨l, hl, hsrc⟩ := hs i l' hl'
  rw [← hsrc]
  exact h i l hl

theorem SourcesOk.of_raised (h : SourcesOk procs events r links) (hr : Raised r r') :
    SourcesOk procs events r' links := by
  intro i l hl
  obtain ⟨hproc, hmem | ⟨a, ha, hle⟩⟩ := h i l hl
  · exact ⟨hproc, .inl hmem⟩
  · obtain ⟨b, hb, hab⟩ := hr _ a ha
    exact ⟨hproc, .inr ⟨b, hb, hle.trans hab⟩⟩

end Links

/-! ## One event walked -/

namespace DynamicTimeline

/-- Every event has its keys as a target: a receive and a collation of summaries have
    well-formed match instructions. -/
theorem target_match_keys_ok (t : DynamicTimeline) (ev : LamportEvent) :
    ∃ keys, t.target_match_keys ev = .ok keys := by
  unfold target_match_keys
  split
  · rename_i heq
    simp only [LamportEvent.match_instruction, heq]
    exact ⟨_, rfl⟩
  · rename_i heq
    refine mapM_ok fun node _ => ?_
    simp only [LamportEvent.match_instruction_for_node, heq]
    exact ⟨_, rfl⟩
  · exact ⟨[], rfl⟩

/-- One key of `attach_link_targets`: the events stay, the links keep their sources, and a
    link returned is one of those returned before or has the source of a link; it fails
    only for a key whose source is not known. -/
theorem attach_link_target_spec (ev : LamportEvent) (acc : DynamicTimeline × List CausalLink)
    (key : EventMatchKey) :
    (∃ acc', attach_link_target ev acc key = .ok acc' ∧ acc'.1.events = acc.1.events ∧
      acc'.1.commit_manager = acc.1.commit_manager ∧
      SameSources acc.1.causal_links acc'.1.causal_links ∧
      ∀ cl ∈ acc'.2, cl ∈ acc.2 ∨ ∃ i l, acc.1.causal_links i = some l ∧ l.source = cl.source) ∨
    attach_link_target ev acc key = .error .target_without_source := by
  obtain ⟨t, added⟩ := acc
  -- a key that changes nothing
  have hsame : attach_link_target ev (t, added) key = .ok (t, added) →
      ∃ acc', attach_link_target ev (t, added) key = .ok acc' ∧ acc'.1.events = t.events ∧
        acc'.1.commit_manager = t.commit_manager ∧
        SameSources t.causal_links acc'.1.causal_links ∧
        ∀ cl ∈ acc'.2, cl ∈ added ∨ ∃ i l, t.causal_links i = some l ∧ l.source = cl.source :=
    fun h => ⟨_, h, rfl, rfl, .refl _, fun cl hcl => .inl hcl⟩
  cases hkey : t.matching_table key with
  | some index =>
    cases hlink : t.causal_links index with
    | some old_link =>
      -- the link of the key gets `ev` as its target
      let t' := t.register_causal_link_dependency (old_link.with_target ev) index
      let linked : DynamicTimeline :=
        { t' with
          causal_links := Function.update t'.causal_links index (some (old_link.with_target ev)) }
      refine .inl ⟨(linked, added ++ [old_link.with_target ev]), ?_, rfl, rfl,
        SameSources.update hlink rfl, ?_⟩
      · simp only [attach_link_target, hkey, hlink]
        rfl
      · intro cl hcl
        rcases List.mem_append.1 hcl with hcl | hcl
        · exact .inl hcl
        · rw [List.mem_singleton.1 hcl]
          exact .inr ⟨index, old_link, hlink, rfl⟩
    | none => exact .inl (hsame (by simp only [attach_link_target, hkey, hlink]; rfl))
  | none =>
    by_cases hrecv : ev.is_packet_receive = true
    · -- a receive whose send is not known is only logged
      exact .inl (hsame (by simp only [attach_link_target, hkey, hrecv]; rfl))
    · exact .inr (by simp only [attach_link_target, hkey, hrecv]; rfl)

/-- **Attaching `ev` as a target** keeps the events and the sources of the links, and every
    link it completes has the source of a link that was there; it fails only for a key
    whose source is not known. -/
theorem attach_link_targets_spec (t : DynamicTimeline) (ev : LamportEvent) :
    (∃ t' added, t.attach_link_targets ev = .ok (t', added) ∧ t'.events = t.events ∧
      t'.commit_manager = t.commit_manager ∧ SameSources t.causal_links t'.causal_links ∧
      ∀ cl ∈ added, ∃ i l, t.causal_links i = some l ∧ l.source = cl.source) ∨
    t.attach_link_targets ev = .error .target_without_source := by
  obtain ⟨keys, hkeys⟩ := t.target_match_keys_ok ev
  rw [attach_link_targets, hkeys, ok_bind]
  -- what the keys attached so far keep
  let P : List EventMatchKey → DynamicTimeline × List CausalLink → Prop := fun _ acc =>
    acc.1.events = t.events ∧ acc.1.commit_manager = t.commit_manager ∧
      SameSources t.causal_links acc.1.causal_links ∧
      ∀ cl ∈ acc.2, ∃ i l, t.causal_links i = some l ∧ l.source = cl.source
  have hstep : ∀ key rest acc, P (key :: rest) acc →
      (∃ acc', attach_link_target ev acc key = .ok acc' ∧ P rest acc') ∨
        ∃ e, attach_link_target ev acc key = .error e ∧ e = .target_without_source := by
    rintro key rest acc ⟨hev, hcm, hsrc, hadded⟩
    rcases attach_link_target_spec ev acc key with ⟨acc', h, hev', hcm', hsrc', hadded'⟩ | h
    · refine .inl ⟨acc', h, hev'.trans hev, hcm'.trans hcm, hsrc.trans hsrc', fun cl hcl => ?_⟩
      rcases hadded' cl hcl with hcl | ⟨i, l, hl, hs⟩
      · exact hadded cl hcl
      · obtain ⟨l₀, hl₀, hs₀⟩ := hsrc i l hl
        exact ⟨i, l₀, hl₀, hs₀.trans hs⟩
    · exact .inr ⟨_, h, rfl⟩
  have hfold : (∃ acc, keys.foldlM (attach_link_target ev) (t, []) = .ok acc ∧ P [] acc) ∨
      ∃ e, keys.foldlM (attach_link_target ev) (t, []) = .error e ∧
        e = .target_without_source :=
    foldlM_ok_or P _ hstep ⟨rfl, rfl, .refl _, fun cl hcl => absurd hcl List.not_mem_nil⟩
  rcases hfold with ⟨⟨t', added⟩, h, hP⟩ | ⟨e, h, rfl⟩
  · exact .inl ⟨t', added, h, hP⟩
  · exact .inr h

end DynamicTimeline

section Raise

variable {procs : List ℕ} {events : SortedMap ℕ (SortedMap LamportEvent Unit)}
  {r ln : SortedMap ℕ LamportEvent}

/-- Adding an entry for a process that had none raises nothing. -/
theorem Raised.insert_of_none {m : SortedMap ℕ LamportEvent} {p : ℕ} (hp : m.get? p = none)
    (b : LamportEvent) : Raised m (m.insert p b) := by
  intro q c hc
  have hq : q ≠ p := by
    rintro rfl
    rw [hp] at hc
    cases hc
  exact ⟨c, by rw [SortedMap.get?_insert_ne _ _ hq, hc], le_rfl⟩

/-- Raising the last needed event of `q` from `known` to the greater of it and a source
    keeps it well placed, when the source is an event of `q` or not after where `q`
    resumes. -/
theorem NeededOk.insert_max (hneed : NeededOk procs events r ln) {q : ℕ} {a known src : LamportEvent}
    (hq : q ∈ procs) (ha : r.get? q = some a) (hle : a ≤ known)
    (hmem : a = known ∨ known ∈ events.members q) (hsrc : src ∈ events.members q ∨ src ≤ a) :
    NeededOk procs events r (ln.insert q (max known src)) := by
  intro p e he
  by_cases hp : p = q
  · subst hp
    rw [SortedMap.get?_insert_self] at he
    cases he
    refine ⟨hq, a, ha, hle.trans (le_max_left _ _), ?_⟩
    rcases le_total src known with hsk | hks
    · rw [max_eq_left hsk]
      exact hmem
    · -- the source is the new last needed event
      rw [max_eq_right hks]
      rcases hsrc with hsrc | hsa
      · exact .inr hsrc
      · exact .inl (le_antisymm (hle.trans hks) hsa)
  · rw [SortedMap.get?_insert_ne _ _ hp] at he
    exact hneed p e he

/-- **Raising a last needed event to a link's source** keeps them all well placed, when the
    source is an event of its timeline or not after where its process resumes. -/
theorem raise_last_needed_spec (hneed : NeededOk procs events r ln) {cl : CausalLink}
    (hproc : cl.source.proc ∈ procs) (hr : (r.get? cl.source.proc).isSome)
    (hsrc : cl.source ∈ events.members cl.source.proc ∨
      ∃ a, r.get? cl.source.proc = some a ∧ cl.source ≤ a) :
    ∃ ln', raise_last_needed r ln cl = .ok ln' ∧ NeededOk procs events r ln' ∧ Raised ln ln' := by
  obtain ⟨a, ha⟩ := Option.isSome_iff_exists.1 hr
  have hsrc' : cl.source ∈ events.members cl.source.proc ∨ cl.source ≤ a := by
    rcases hsrc with hsrc | ⟨a', ha', hle⟩
    · exact .inl hsrc
    · rw [ha] at ha'
      cases ha'
      exact .inr hle
  cases hl : ln.get? cl.source.proc with
  | some e =>
    -- raised from the last needed event
    obtain ⟨-, a', ha', hle, hmem⟩ := hneed _ e hl
    rw [ha] at ha'
    cases ha'
    exact ⟨_, by simp only [raise_last_needed, hl]; rfl,
      hneed.insert_max hproc ha hle hmem hsrc', Raised.insert hl (le_max_left _ _)⟩
  | none =>
    -- raised from where the process resumes
    exact ⟨_, by simp only [raise_last_needed, hl, ha]; rfl,
      hneed.insert_max hproc ha le_rfl (.inl rfl) hsrc', Raised.insert_of_none hl _⟩

/-- **Walking one event** keeps the events and the sources of the links, and keeps the last
    needed events well placed while it raises them; it fails only for a target whose
    source is not known. -/
theorem track_link_targets_and_dependencies_spec {t : DynamicTimeline} (ev : LamportEvent)
    (hsrc : SourcesOk procs t.events r t.causal_links) (hneed : NeededOk procs t.events r ln)
    (hr : ∀ p ∈ procs, (r.get? p).isSome) :
    (∃ t' ln', t.track_link_targets_and_dependencies ln r ev = .ok (t', ln') ∧
      t'.events = t.events ∧ t'.commit_manager = t.commit_manager ∧
      SameSources t.causal_links t'.causal_links ∧
      NeededOk procs t.events r ln' ∧ Raised ln ln') ∨
    t.track_link_targets_and_dependencies ln r ev = .error .target_without_source := by
  rcases t.attach_link_targets_spec ev with ⟨t', added, h, hev, hcm, hsame, hadded⟩ | h
  · -- each link completed raises the last needed event of its source's process
    have hfold : ∃ ln', added.foldlM (raise_last_needed r) ln = .ok ln' ∧
        (NeededOk procs t.events r ln' ∧ Raised ln ln') := by
      refine foldlM_exists _ (fun ln' cl hcl hP => ?_) ⟨hneed, .refl _⟩
      obtain ⟨i, l, hl, hs⟩ := hadded cl hcl
      obtain ⟨hproc, hplace⟩ := hsrc i l hl
      rw [hs] at hproc hplace
      obtain ⟨ln'', hraise, hneed'', hraised⟩ :=
        raise_last_needed_spec hP.1 hproc (hr _ hproc) hplace
      exact ⟨ln'', hraise, hneed'', hP.2.trans hraised⟩
    obtain ⟨ln', hfold, hneed', hraised⟩ := hfold
    refine .inl ⟨t', ln', ?_, hev, hcm, hsame, hneed', hraised⟩
    simp only [DynamicTimeline.track_link_targets_and_dependencies, h, ok_bind, hfold]
    rfl
  · refine .inr ?_
    simp only [DynamicTimeline.track_link_targets_and_dependencies, h]
    rfl

/-- Resuming a process at a later event, not after its last needed one, keeps the last
    needed events well placed: that of the process is then an event of its timeline. -/
theorem NeededOk.insert_resume (hneed : NeededOk procs events r ln) {p : ℕ} {c ev : LamportEvent}
    (hc : r.get? p = some c) (hlt : c < ev) (hle : ∃ e, ln.get? p = some e ∧ ev ≤ e) :
    NeededOk procs events (r.insert p ev) ln := by
  intro q e he
  obtain ⟨hq, c', hc', hle', hmem⟩ := hneed q e he
  by_cases hqp : q = p
  · subst hqp
    rw [hc] at hc'
    cases hc'
    obtain ⟨e', he', hev⟩ := hle
    rw [he] at he'
    cases he'
    -- the last needed event is past the old resume point, so an event of the timeline
    exact ⟨hq, ev, SortedMap.get?_insert_self _ _ _, hev,
      .inr (hmem.resolve_left (ne_of_lt (lt_of_lt_of_le hlt hev)))⟩
  · exact ⟨hq, c', by rw [SortedMap.get?_insert_ne _ _ hqp, hc'], hle', hmem⟩

end Raise

/-! ## A turn of the inner loop -/

/-- What a step of phase 2 keeps: the events, while it only raises where the processes
    resume and their last needed events, and a process still with no last needed event
    resumes where it did. -/
structure Later (s s' : PhaseTwo) : Prop where
  events : s'.tl.events = s.tl.events
  commit_manager : s'.tl.commit_manager = s.tl.commit_manager
  resume : Raised s.resume_with s'.resume_with
  needed : Raised s.last_needed_ev s'.last_needed_ev
  frame : ∀ p, s'.last_needed_ev.get? p = none → s'.resume_with.get? p = s.resume_with.get? p

theorem Later.refl (s : PhaseTwo) : Later s s := ⟨rfl, rfl, .refl _, .refl _, fun _ _ => rfl⟩

theorem Later.trans {s s' s'' : PhaseTwo} (h : Later s s') (h' : Later s' s'') : Later s s'' := by
  refine ⟨h'.events.trans h.events, h'.commit_manager.trans h.commit_manager,
    h.resume.trans h'.resume, h.needed.trans h'.needed, fun p hp => ?_⟩
  -- a process with no last needed event at the end had none in between
  have hp' : s'.last_needed_ev.get? p = none := by
    cases hq : s'.last_needed_ev.get? p with
    | none => rfl
    | some a =>
      obtain ⟨b, hb, -⟩ := h'.needed p a hq
      rw [hp] at hb
      cases hb
  rw [h'.frame p hp, h.frame p hp']

section Done

variable {procs : List ℕ} {events : SortedMap ℕ (SortedMap LamportEvent Unit)}
  {r ln : SortedMap ℕ LamportEvent} {p : ℕ}

/-- With the last needed events well placed, the check of a process does not panic. -/
theorem done_with_proc_ok (hneed : NeededOk procs events r ln) (p : ℕ) :
    ∃ b, done_with_proc p r ln = .ok b := by
  cases hl : ln.get? p with
  | none => exact ⟨true, by simp only [done_with_proc, hl]; rfl⟩
  | some e =>
    obtain ⟨-, a, ha, -⟩ := hneed p e hl
    exact ⟨a == e, by simp only [done_with_proc, hl, ha]; rfl⟩

theorem done_with_proc_eq_false (h : done_with_proc p r ln = .ok false) :
    ∃ a b, r.get? p = some a ∧ ln.get? p = some b ∧ a ≠ b := by
  unfold done_with_proc at h
  split at h
  · rename_i a b ha hb
    refine ⟨a, b, ha, hb, fun hab => ?_⟩
    subst hab
    simp [Counter.pure_eq_ok_iff] at h
  · cases h
  · cases h

theorem done_with_proc_eq_true (h : done_with_proc p r ln = .ok true) {b : LamportEvent}
    (hb : ln.get? p = some b) : r.get? p = some b := by
  unfold done_with_proc at h
  split at h
  · rename_i a b' ha hb'
    rw [hb] at hb'
    cases hb'
    rw [ha, (beq_iff_eq.1 (Counter.pure_eq_ok_iff.1 h))]
  · rename_i hnone
    rw [hb] at hnone
    cases hnone
  · cases h

theorem done_with_proc_of_ne {a b : LamportEvent} (ha : r.get? p = some a)
    (hb : ln.get? p = some b) (hab : a ≠ b) : done_with_proc p r ln = .ok false := by
  simp only [done_with_proc, ha, hb, beq_eq_false_iff_ne.2 hab]
  rfl

end Done

/-- **A turn of the inner loop** on a process `p` that is not done walks its events up to
    its last needed event, an event of its timeline past where it resumed: the turn
    keeps the invariant and moves only where `p` resumes, strictly forward.  It fails
    only for a target whose source is not known. -/
theorem phase_two_turn_spec {procs : List ℕ} {p : ℕ} {s : PhaseTwo}
    {tl : SortedMap LamportEvent Unit} (hinv : PhaseTwoInv procs s)
    (htl : s.tl.events.get? p = some tl)
    (hdone : done_with_proc p s.resume_with s.last_needed_ev = .ok false) :
    (∃ s', phase_two_turn p tl s = .ok s' ∧ PhaseTwoInv procs s' ∧ Later s s' ∧
      (∀ q, q ≠ p → s'.resume_with.get? q = s.resume_with.get? q) ∧
      ∃ a b, s.resume_with.get? p = some a ∧ s'.resume_with.get? p = some b ∧ a < b ∧
        b ∈ s.tl.events.members p) ∨
    phase_two_turn p tl s = .error .target_without_source := by
  obtain ⟨a, b, ha, hb, hab⟩ := done_with_proc_eq_false hdone
  obtain ⟨-, a', ha', hle, hmem⟩ := hinv.needed p b hb
  rw [ha] at ha'
  cases ha'
  have hlt : a < b := lt_of_le_of_ne hle hab
  have hkeys : s.tl.events.members p = tl.keys := SortedMap.members_of_get? htl
  have hbmem : b ∈ tl.keys := hkeys ▸ hmem.resolve_left hab
  -- the events walked: after `a`, up to `b`, in order
  have hsorted : (tl.keys.filter fun e => a < e ∧ e ≤ b).Pairwise (· < ·) :=
    (SortedMap.keys_sorted tl).filter _
  simp only [phase_two_turn, ha, hb, hle, not_true_eq_false, ↓reduceIte, range_oc_of_le hle,
    ok_bind]
  refine foldlM_ok_or_error (fun rest s'' => ∃ pre,
      tl.keys.filter (fun e => a < e ∧ e ≤ b) = pre ++ rest ∧ PhaseTwoInv procs s'' ∧
      Later s s'' ∧ (∀ q, q ≠ p → s''.resume_with.get? q = s.resume_with.get? q) ∧
      s''.resume_with.get? p = some (pre.getLast?.getD a)) ?_ ?_
    ⟨[], rfl, hinv, .refl s, fun _ _ => rfl, ha⟩
  · rintro ev rest s'' ⟨pre, hsplit, hinv'', hlater, hframe, hres⟩
    -- `ev` is an event of `p` past where it resumes now, and not past `b`
    have hev : ev ∈ tl.keys.filter fun e => a < e ∧ e ≤ b := by
      rw [hsplit]
      exact List.mem_append_right _ List.mem_cons_self
    obtain ⟨hev_mem, hev_a, hev_b⟩ : ev ∈ tl.keys ∧ a < ev ∧ ev ≤ b := by
      simpa using List.mem_filter.1 hev
    have hpre : ∀ x ∈ pre, x < ev := by
      rw [hsplit] at hsorted
      exact fun x hx => (List.pairwise_append.1 hsorted).2.2 x hx ev List.mem_cons_self
    have hc : pre.getLast?.getD a < ev := by
      cases hl : pre.getLast? with
      | none => exact hev_a
      | some x => exact hpre x (List.mem_of_getLast? hl)
    have hev_p : ev.proc = p := hinv.events_proc p ev (hkeys ▸ hev_mem)
    obtain ⟨b'', hb'', hbb''⟩ := hlater.needed p b hb
    rcases track_link_targets_and_dependencies_spec ev hinv''.sources hinv''.needed hinv''.resume
      with ⟨t', ln', htrack, hev', hcm', hsame, hneed', hraised⟩ | herr
    · obtain ⟨e', he', hbe'⟩ := hraised p b'' hb''
      refine .inl ⟨⟨t', ln', s''.resume_with.insert p ev⟩, by rw [htrack, ok_bind]; rfl, pre ++ [ev],
        by rw [hsplit, List.append_assoc, List.singleton_append], ?_, ?_, fun q hq => ?_, ?_⟩
      · refine ⟨fun q hq => hev' ▸ hinv''.timelines q hq, fun q e he => hinv''.events_proc q e
          (hev' ▸ he), fun q hq => ?_, fun q r hr => ?_, ?_, ?_⟩
        · by_cases hqp : q = p
          · rw [hqp, SortedMap.get?_insert_self]
            rfl
          · rw [SortedMap.get?_insert_ne _ _ hqp]
            exact hinv''.resume q hq
        · by_cases hqp : q = p
          · rw [hqp, SortedMap.get?_insert_self, Option.some.injEq] at hr
            rw [← hr, hev_p, hqp]
          · rw [SortedMap.get?_insert_ne _ _ hqp] at hr
            exact hinv''.resume_proc q r hr
        · rw [hev']
          exact hneed'.insert_resume hres hc ⟨e', he', hev_b.trans (hbb''.trans hbe')⟩
        · rw [hev']
          exact (hinv''.sources.of_sameSources hsame).of_raised (Raised.insert hres hc.le)
      · -- only `p`, which has a last needed event, resumes elsewhere
        refine hlater.trans ⟨hev', hcm', Raised.insert hres hc.le, hraised, fun q hq => ?_⟩
        have hqp : q ≠ p := by
          rintro rfl
          rw [he'] at hq
          cases hq
        exact SortedMap.get?_insert_ne _ _ hqp
      · rw [SortedMap.get?_insert_ne _ _ hq]
        exact hframe q hq
      · rw [SortedMap.get?_insert_self]
        simp
    · exact .inr (by rw [herr]; rfl)
  · rintro s' ⟨pre, hsplit, hinv', hlater, hframe, hres⟩
    -- all walked: `p` resumes after the last event of the range, `b`
    rw [List.append_nil] at hsplit
    have hlast : pre.getLast? = some b := by
      rw [← hsplit]
      exact SortedMap.getLast?_filter_Ioc (SortedMap.keys_sorted tl) hbmem hlt
    refine ⟨hinv', hlater, hframe, a, b, rfl, by rw [hres, hlast]; rfl, hlt, hkeys ▸ hbmem⟩

/-! ## The loops -/

theorem DynamicTimeline.timeline_eq_ok {t : DynamicTimeline} {p : ℕ}
    {tl : SortedMap LamportEvent Unit} (h : t.events.get? p = some tl) : t.timeline p = .ok tl :=
  DynamicTimeline.timeline_eq_ok_iff.2 h

/-- A process not done is no more done after the last needed events are raised, as long as
    where it resumes has not moved. -/
theorem done_with_proc_of_raised {procs : List ℕ} {events : SortedMap ℕ (SortedMap LamportEvent Unit)}
    {r r' ln ln' : SortedMap ℕ LamportEvent} {p : ℕ} (hneed : NeededOk procs events r ln)
    (hd : done_with_proc p r ln = .ok false) (hr : r'.get? p = r.get? p) (hln : Raised ln ln') :
    done_with_proc p r' ln' = .ok false := by
  obtain ⟨a, b, ha, hb, hab⟩ := done_with_proc_eq_false hd
  obtain ⟨-, a', ha', hle, -⟩ := hneed p b hb
  rw [ha] at ha'
  cases ha'
  obtain ⟨b', hb', hbb'⟩ := hln p b hb
  exact done_with_proc_of_ne (hr.trans ha) hb'
    (ne_of_lt (lt_of_lt_of_le (lt_of_le_of_ne hle hab) hbb'))

/-- **The inner loop on `p`** ends, given more turns than events, with `p` done; it keeps
    the invariant and moves only where `p` resumes, and when `p` was not done it leaves
    fewer events to walk.  It fails only as a turn does. -/
theorem inner_loop_spec {procs : List ℕ} {p : ℕ} {s : PhaseTwo} {tl : SortedMap LamportEvent Unit}
    {fuel : ℕ} (hinv : PhaseTwoInv procs s) (htl : s.tl.events.get? p = some tl)
    (hfuel : (all_events s.tl.events).length < fuel) :
    (∃ s', whileM (fun s => done_with_proc p s.resume_with s.last_needed_ev) (phase_two_turn p tl)
        .fixpoint_fuel fuel s = .ok s' ∧ PhaseTwoInv procs s' ∧ Later s s' ∧
      (∀ q, q ≠ p → s'.resume_with.get? q = s.resume_with.get? q) ∧
      (done_with_proc p s.resume_with s.last_needed_ev = .ok false →
        pending s.tl.events s'.resume_with < pending s.tl.events s.resume_with)) ∨
    whileM (fun s => done_with_proc p s.resume_with s.last_needed_ev) (phase_two_turn p tl)
      .fixpoint_fuel fuel s = .error .target_without_source := by
  refine whileM_ok_or_error _ _ _ (fun s'' => PhaseTwoInv procs s'' ∧ Later s s'' ∧
      ∀ q, q ≠ p → s''.resume_with.get? q = s.resume_with.get? q)
    (fun s'' => pending s.tl.events s''.resume_with) (fun s'' h => done_with_proc_ok h.1.needed p)
    ?_ ?_ ⟨hinv, .refl s, fun _ _ => rfl⟩ (lt_of_le_of_lt (pending_le_length _ _) hfuel)
  · rintro s'' ⟨hinv'', hlater, hframe⟩ hd
    rcases phase_two_turn_spec hinv'' (hlater.events ▸ htl) hd with
      ⟨s₃, hturn, hinv₃, hlater', hframe', a, b, ha, hb, hab, hbmem⟩ | herr
    · -- the turn walks past `b`, an event of `p`
      refine .inl ⟨s₃, hturn, ⟨hinv₃, hlater.trans hlater', fun q hq => ?_⟩, ?_⟩
      · rw [hframe' q hq, hframe q hq]
      · rw [hlater.events] at hbmem
        exact pending_lt hlater'.resume ha hb hbmem (hinv.events_proc p b hbmem) hab le_rfl
    · exact .inr herr
  · rintro s' ⟨hinv', hlater, hframe⟩ hd'
    refine ⟨hinv', hlater, hframe, fun hd => ?_⟩
    -- `p` was behind its last needed event, an event of it, and is now past it
    obtain ⟨a, b, ha, hb, hab⟩ := done_with_proc_eq_false hd
    obtain ⟨-, a', ha', hle, hmem⟩ := hinv.needed p b hb
    rw [ha] at ha'
    cases ha'
    have hbmem := hmem.resolve_left hab
    obtain ⟨b', hb', hbb'⟩ := hlater.needed p b hb
    exact pending_lt hlater.resume ha (done_with_proc_eq_true hd' hb') hbmem
      (hinv.events_proc p b hbmem) (lt_of_le_of_ne hle hab) hbb'

/-- **Phase 2 ends.**  From a state with the invariant, given more turns than there are
    events, each pass of the outer loop that does not start done leaves fewer events to
    walk, so the loop ends with every process resumed after its last needed event.  It
    fails only for a target whose source is not known: never for want of turns, for a
    range walked backwards or for a process with nowhere to resume. -/
theorem phase_two_spec {procs : List ℕ} {fuel : ℕ} {s : PhaseTwo} (hinv : PhaseTwoInv procs s)
    (hfuel : (all_events s.tl.events).length < fuel) :
    (∃ s', phase_two procs fuel s = .ok s' ∧ PhaseTwoInv procs s' ∧ Later s s' ∧
      ∀ p e, s'.last_needed_ev.get? p = some e → s'.resume_with.get? p = some e) ∨
    phase_two procs fuel s = .error .target_without_source := by
  unfold phase_two
  refine whileM_ok_or_error _ _ _ (fun s' => PhaseTwoInv procs s' ∧ Later s s')
    (fun s' => pending s.tl.events s'.resume_with)
    (fun s' h => allM_ok fun p _ => done_with_proc_ok h.1.needed p) ?_ ?_ ⟨hinv, .refl s⟩
    (lt_of_le_of_lt (pending_le_length _ _) hfuel)
  · rintro s' ⟨hinv', hlater₀⟩ hd
    -- a process not done at the start of the pass
    obtain ⟨q, hq, hqd⟩ := allM_eq_ok_false hd
    have hqprocs : q ∈ procs := by
      obtain ⟨e, he⟩ := Option.isSome_iff_exists.1 (SortedMap.mem_keys.1 hq)
      exact (hinv'.needed q e he).1
    -- the pass, process by process
    refine foldlM_ok_or_error (fun rest s'' => ∃ pre, procs = pre ++ rest ∧
        PhaseTwoInv procs s'' ∧ Later s' s'' ∧
        (∀ q, q ∉ pre → s''.resume_with.get? q = s'.resume_with.get? q) ∧
        ((∃ q ∈ pre, done_with_proc q s'.resume_with s'.last_needed_ev = .ok false) →
          pending s.tl.events s''.resume_with < pending s.tl.events s'.resume_with)) ?_ ?_
      ⟨[], by rw [List.nil_append], hinv', .refl s', fun _ _ => rfl, fun ⟨_, h, _⟩ =>
        absurd h List.not_mem_nil⟩
    · rintro p rest s'' ⟨pre, hsplit, hinv'', hlater, hframe, hless⟩
      have hp : p ∈ procs := by
        rw [hsplit]
        exact List.mem_append_right _ List.mem_cons_self
      obtain ⟨tl, htl⟩ := Option.isSome_iff_exists.1 (hinv''.timelines p hp)
      have hfuel'' : (all_events s''.tl.events).length < fuel := by
        rw [hlater.events, hlater₀.events]
        exact hfuel
      rcases inner_loop_spec hinv'' htl hfuel'' with
        ⟨s₃, hloop, hinv₃, hlater', hframe', hstrict⟩ | herr
      · refine .inl ⟨s₃, by rw [DynamicTimeline.timeline_eq_ok htl, ok_bind]; exact hloop,
          pre ++ [p], by rw [hsplit, List.append_assoc, List.singleton_append], hinv₃,
          hlater.trans hlater', fun q' hq' => ?_, ?_⟩
        · rw [List.mem_append, List.mem_singleton, not_or] at hq'
          rw [hframe' q' hq'.2, hframe q' hq'.1]
        · rintro ⟨q', hq', hq'd⟩
          have hev'' : s''.tl.events = s.tl.events := hlater.events.trans hlater₀.events
          have hmono : pending s.tl.events s₃.resume_with ≤ pending s.tl.events s''.resume_with :=
            pending_mono hlater'.resume
          by_cases hq'pre : q' ∈ pre
          · exact lt_of_le_of_lt hmono (hless ⟨q', hq'pre, hq'd⟩)
          · -- `p` was not done when the pass started, and is not done yet
            have hq'p : q' = p := by
              simpa [hq'pre] using List.mem_append.1 hq'
            subst hq'p
            have hd'' := done_with_proc_of_raised hinv'.needed hq'd (hframe q' hq'pre)
              hlater.needed
            have hlt := hstrict hd''
            rw [hev''] at hlt
            exact lt_of_lt_of_le hlt (pending_mono hlater.resume)
      · exact .inr (by rw [DynamicTimeline.timeline_eq_ok htl, ok_bind]; exact herr)
    · rintro s'' ⟨pre, hsplit, hinv'', hlater, -, hless⟩
      rw [List.append_nil] at hsplit
      exact ⟨⟨hinv'', hlater₀.trans hlater⟩, hless ⟨q, hsplit ▸ hqprocs, hqd⟩⟩
  · rintro s' ⟨hinv', hlater₀⟩ hd
    refine ⟨hinv', hlater₀, fun p e he => ?_⟩
    -- every process with a last needed event is done
    have hp : p ∈ s'.last_needed_ev.keys := SortedMap.mem_keys.2 (by rw [he]; rfl)
    exact done_with_proc_eq_true (allM_eq_ok_true hd p hp) he

/-- The states the turns of phase 2 over `procs` reach from `s₀`: a turn on a process with a
    timeline that is not done, in any order of the processes. -/
inductive TurnReach (procs : List ℕ) (s₀ : PhaseTwo) : PhaseTwo → Prop
  | start : TurnReach procs s₀ s₀
  | turn {s s' : PhaseTwo} {p : ℕ} {tl : SortedMap LamportEvent Unit} :
      TurnReach procs s₀ s → p ∈ procs → s.tl.events.get? p = some tl →
      done_with_proc p s.resume_with s.last_needed_ev = .ok false →
      phase_two_turn p tl s = .ok s' → TurnReach procs s₀ s'

/-- Every state the turns reach has the invariant, when the first has it. -/
theorem TurnReach.inv {procs : List ℕ} {s₀ s : PhaseTwo} (h₀ : PhaseTwoInv procs s₀)
    (h : TurnReach procs s₀ s) : PhaseTwoInv procs s := by
  induction h with
  | start => exact h₀
  | turn _ _ htl hd hturn ih =>
    rcases phase_two_turn_spec ih htl hd with ⟨s'', hturn', hinv'', -⟩ | herr
    · rw [hturn] at hturn'
      cases hturn'
      exact hinv''
    · rw [hturn] at herr
      cases herr

end Abstraktor.Mediator
