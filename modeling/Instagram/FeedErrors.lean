-- Snapshots that do not decode. The transformer raises on them and adds nothing, so the feed
-- goes on with the last list of that stream that did decode, as if nothing had come.
import Instagram.Feed
import Instagram.PostDecode

namespace instagram

open docs firestore runs streams

/-! ## Leaving them out -/

/-- The deliveries whose snapshots decode. -/
def readable (evs : List (ℕ × PostsSnapshot)) : List (ℕ × PostsSnapshot) :=
  evs.filter fun ev => (toPosts ev.2).isOk

theorem isOk_toPosts {snapshot : PostsSnapshot} :
    (toPosts snapshot).isOk = true ↔ Decodes snapshot := by
  unfold Decodes
  cases toPosts snapshot with
  | ok posts => exact ⟨fun _ => ⟨posts, rfl⟩, fun _ => rfl⟩
  | error x =>
    constructor
    · intro h
      cases h
    · rintro ⟨_, h⟩
      cases h

theorem mem_readable {evs : List (ℕ × PostsSnapshot)} {ev : ℕ × PostsSnapshot} :
    ev ∈ readable evs ↔ ev ∈ evs ∧ Decodes ev.2 := by
  unfold readable
  rw [List.mem_filter, isOk_toPosts]

theorem readable_snoc (evs : List (ℕ × PostsSnapshot)) (ev : ℕ × PostsSnapshot) :
    readable (evs ++ [ev]) = readable evs ++ if (toPosts ev.2).isOk then [ev] else [] := by
  unfold readable
  rw [List.filter_append, List.filter_singleton, Bool.cond_eq_ite]

/-- No delivery opens or closes a stream. -/
theorem feedStep_length {sort : PostSort} {s t : FeedState} {ev : ℕ × PostsSnapshot}
    (h : feedStep sort s ev = some t) : t.latest.length = s.latest.length := by
  unfold feedStep at h
  split at h
  · split at h
    · cases h
      rfl
    · dsimp only at h
      split at h <;> cases h <;> exact List.length_set
  · cases h

/-- A snapshot that does not decode changes nothing. -/
theorem feedStep_error (sort : PostSort) {s : FeedState} {ev : ℕ × PostsSnapshot}
    (hi : ev.1 < s.latest.length) (h : (toPosts ev.2).isOk = false) :
    feedStep sort s ev = some s := by
  unfold feedStep
  rw [if_pos hi]
  cases hposts : toPosts ev.2 with
  | ok posts =>
    rw [hposts] at h
    cases h
  | error x => rfl

theorem run_readable (sort : PostSort) {followings : List String} {evs : List (ℕ × PostsSnapshot)}
    (hdel : ∀ ev ∈ evs, IsDelivery followings ev) :
    run (feedStep sort) (feedInit followings) (readable evs) =
      run (feedStep sort) (feedInit followings) evs := by
  refine run_filter (I := fun s => s.latest.length = followings.length) ?_ ?_ hdel ?_
  · exact fun s ev t _ hs h => (feedStep_length h).trans hs
  · intro s ev hev hs h
    exact feedStep_error sort (hs ▸ stream_of_delivery hev) h
  · simp [feedInit, fetchPostsFromAllFollowers]

/-! ## The law -/

/-- A run of deliveries, of which some decode and others do not: it goes through as the run of
those that decode. Each delivery that does not decode changes nothing. Each one that does gives
the feed of the latest snapshots that decoded, newest first and nothing twice, as soon as every
stream has had one, and before that there is no feed. -/
theorem the_feed_skips_what_does_not_decode (sort : PostSort) (hsort : SortsAsDart sort)
    (followings : List String) (evs : List (ℕ × PostsSnapshot)) (ev : ℕ × PostsSnapshot)
    (hdel : ∀ e ∈ evs ++ [ev], IsDelivery followings e) :
    ∃ s t, run (feedStep sort) (feedInit followings) evs = some s ∧ feedStep sort s ev = some t ∧
      run (feedStep sort) (feedInit followings) (readable (evs ++ [ev])) = some t ∧
      (¬ Decodes ev.2 → t = s) ∧
      ((∃ i < followings.length, latestOf (readable (evs ++ [ev])) i = none) →
        s.emitted = [] ∧ t.emitted = []) ∧
      (Decodes ev.2 →
        (∀ i < followings.length, (latestOf (readable (evs ++ [ev])) i).isSome) →
        ∃ feed, t.emitted = s.emitted ++ [feed] ∧
          IsFeed followings (readable (evs ++ [ev])) feed ∧
          (followings.Nodup → EachOnce followings (readable (evs ++ [ev])) feed)) := by
  have hdel' : ∀ e ∈ evs, IsDelivery followings e := fun e he => hdel e (by simp [he])
  have hreadable : ∀ e ∈ readable evs, IsDelivery followings e :=
    fun e he => hdel' e (mem_readable.mp he).1
  have hdecodes : ∀ e ∈ readable evs, Decodes e.2 := fun e he => (mem_readable.mp he).2
  obtain ⟨s, hrun, hs⟩ := feed_run sort hreadable hdecodes
  have hi := stream_of_delivery (hdel ev (by simp))
  have hlength : s.latest.length = followings.length := by
    rw [hs.latest, latestTable, List.length_map, List.length_range]
  have hrun' : run (feedStep sort) (feedInit followings) evs = some s := by
    rw [← run_readable sort hdel']
    exact hrun
  by_cases hok : Decodes ev.2
  · have hsnoc : readable (evs ++ [ev]) = readable evs ++ [ev] := by
      rw [readable_snoc, if_pos (isOk_toPosts.mpr hok)]
    have hall : ∀ e ∈ readable evs ++ [ev], e ∈ evs ++ [ev] ∧ Decodes e.2 :=
      fun e he => mem_readable.mp (hsnoc ▸ he)
    obtain ⟨t, hstep, hmissing, hemits⟩ := feed_of_delivery hsort
      (fun e he => hdel e (hall e he).1) (fun e he => (hall e he).2) hs
    rw [hsnoc]
    exact ⟨s, t, hrun', hstep, by rw [run_snoc, hrun]; exact hstep, fun hno => absurd hok hno,
      hmissing, fun _ => hemits⟩
  · have hfails : (toPosts ev.2).isOk = false := by simpa using mt isOk_toPosts.mp hok
    have hsnoc : readable (evs ++ [ev]) = readable evs := by
      rw [readable_snoc, hfails]
      simp
    rw [hsnoc]
    exact ⟨s, s, hrun', feedStep_error sort (hlength ▸ hi) hfails, hrun, fun _ => rfl,
      fun hmissing => ⟨hs.early hmissing, hs.early hmissing⟩, fun h => absurd h hok⟩

/-- Ann's sunset, which was liked. -/
def sunsetSnapshot : PostsSnapshot := ⟨[("s", sunsetDoc)], fun _ => (0, 0)⟩

theorem sunsetSnapshot_delivers : IsDelivery ["ann", "bob"] (0, sunsetSnapshot) := by
  refine ⟨_, fun ref => if ref = [COLLECTION_POST, "s"] then some sunsetDoc else none, rfl,
    by simp [sunsetSnapshot], fun id d => ?_⟩
  have hann : sunsetDoc KEY_USERKEY = some (str "ann") := rfl
  by_cases hid : id = "s"
  · subst hid
    simp only [sunsetSnapshot, List.mem_singleton, Prod.mk.injEq, true_and, List.cons_append,
      List.nil_append, if_pos, Option.some.injEq]
    exact ⟨fun h => ⟨h.symm, h ▸ hann⟩, fun h => h.1.symm⟩
  · simp [sunsetSnapshot, hid]

/-- The sunset does not decode, and the feed that stood before it stays. -/
theorem the_feed_skips_what_does_not_decode_at_the_sunset :
    ¬ Decodes sunsetSnapshot ∧
      ∃ s t, run (feedStep fun cmp l => l.mergeSort fun a b => decide (cmp a b ≤ 0))
          (feedInit ["ann", "bob"]) [(1, bobsSnapshot), (0, annsSnapshot)] = some s ∧
        feedStep (fun cmp l => l.mergeSort fun a b => decide (cmp a b ≤ 0)) s
          (0, sunsetSnapshot) = some t ∧ t = s := by
  have hno : ¬ Decodes sunsetSnapshot := by
    rintro ⟨posts, hposts⟩
    cases hposts
  have hdel : ∀ e ∈ [(1, bobsSnapshot), (0, annsSnapshot)] ++ [(0, sunsetSnapshot)],
      IsDelivery ["ann", "bob"] e := by
    intro e he
    rcases List.mem_append.mp he with he | he
    · exact twoPosts_deliveries e he
    · rw [List.mem_singleton.mp he]
      exact sunsetSnapshot_delivers
  obtain ⟨s, t, hrun, hstep, _, hsame, _⟩ := the_feed_skips_what_does_not_decode _
    mergeSort_sortsAsDart ["ann", "bob"] [(1, bobsSnapshot), (0, annsSnapshot)]
    (0, sunsetSnapshot) hdel
  exact ⟨hno, s, t, hrun, hstep, hsame hno⟩

end instagram
