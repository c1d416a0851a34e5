import RunCache.Proofs.Cache.Contents

/-! # Which objects are read

    A trace tells which objects have been read, in order.  A run of a bucket
    remembers what it has read, so writing it reads its paths in their
    order, each at most as often as it is listed.

    * **`World.HasRead`**: a later world in which given objects have been
      read since.
    * **`Run.content_hasRead`**: reading one path.
    * **`Run.write_hasRead`**: writing a run. -/

namespace RunCache

/-! ## Reads in a trace -/

/-- The objects read among some events. -/
def readNames (events : List Event) : List String :=
  events.filterMap fun e => match e with
    | .read name => some name
    | _ => none

@[simp] theorem readNames_nil : readNames [] = [] := rfl

@[simp] theorem readNames_append (xs ys : List Event) :
    readNames (xs ++ ys) = readNames xs ++ readNames ys := List.filterMap_append

theorem mem_readNames {events : List Event} {name : String} :
    name ∈ readNames events ↔ .read name ∈ events := by
  unfold readNames
  rw [List.mem_filterMap]
  constructor
  · rintro ⟨e, he, hname⟩
    cases e with
    | read n =>
      obtain rfl := Option.some.inj hname
      exact he
    | _ => cases hname
  · intro he
    exact ⟨_, he, rfl⟩

namespace World

/-- A later world in which some objects have been read since, in this order. -/
def HasRead (names : List String) (w w' : World) : Prop :=
  ∃ events, w'.trace = w.trace ++ events ∧ readNames events = names

variable {w w' w'' : World} {names names' : List String}

namespace HasRead

theorem refl (w : World) : HasRead [] w w := ⟨[], by simp, rfl⟩

theorem trans (h : HasRead names w w') (h' : HasRead names' w' w'') :
    HasRead (names ++ names') w w'' := by
  obtain ⟨xs, hxs, rfl⟩ := h
  obtain ⟨ys, hys, rfl⟩ := h'
  exact ⟨xs ++ ys, by rw [hys, hxs, List.append_assoc], readNames_append xs ys⟩

/-- Calls among which there is no read have read nothing. -/
theorem of_calls {allowed : Event → Prop} (h : Calls allowed w w')
    (hnot : ∀ name, ¬ allowed (.read name)) : HasRead [] w w' := by
  obtain ⟨events, htrace, hall⟩ := h.trace
  refine ⟨events, htrace, List.eq_nil_iff_forall_not_mem.mpr ?_⟩
  intro name hname
  exact hnot name (hall _ (mem_readNames.mp hname))

end HasRead

/-- Reading an object leaves a read of it in the trace, unless the signal forbids the call. -/
theorem read_hasRead (w : World) (store : Store) (name : String) :
    ∃ names, names.Sublist [name] ∧ HasRead names w (w.read store name).2 := by
  unfold World.read call
  split
  · exact ⟨[], List.nil_sublist _, .refl w⟩
  · have hnote : HasRead [name] w (w.note (.read name)) := ⟨[.read name], rfl, rfl⟩
    -- While the answer is awaited nothing but the signal happens.
    have hawait : Calls (fun e => e = .fired) (w.note (.read name))
        ((w.note (.read name)).await (store.read w name)).2 := await_calls _ _ rfl
    refine ⟨[name], List.Sublist.refl _, ?_⟩
    have hboth := hnote.trans (.of_calls hawait fun n hn => by cases hn)
    exact hboth

end World

/-! ## Reads of a run -/

namespace Run

open World (HasRead)

variable {store : Store} {root : Path} {r r' : Run} {w w' : World} {memo : Fields ByteArray}
  {path : String}

/-- Reading a path of a run reads the object at most once, and not at all if it is remembered. The
    run stays one of a bucket and forgets nothing. -/
theorem content_hasRead (store : Store) (hr : r.origin = .bucket memo) (path : String) (w : World) :
    Remembers r (r.content store path w).2.1 ∧
      ∃ names, names.Sublist [path] ∧ (names ≠ [] → r.memo.get? path = none) ∧
        HasRead names w (r.content store path w).2.2 := by
  have hmemo : r.memo = memo := by rw [Run.memo, hr]
  have hself : Remembers r r := ⟨⟨memo, hr⟩, fun _ _ hk => hk⟩
  have hnothing : ∃ names : List String, names.Sublist [path] ∧
      (names ≠ [] → r.memo.get? path = none) ∧ HasRead names w w :=
    ⟨[], List.nil_sublist _, fun hne => absurd rfl hne, .refl w⟩
  cases hcontent : r.content store path w with
  | mk result rest =>
    obtain ⟨r', w'⟩ := rest
    have hrem : Remembers r r' := by
      cases result with
      | ok bytes => exact (content_ok hr hcontent).2.2
      | error e =>
        rw [content_error hr hcontent]
        exact hself
    refine ⟨hrem, ?_⟩
    unfold content at hcontent
    split at hcontent
    · obtain ⟨_, _, rfl⟩ := by simpa using hcontent
      exact hnothing
    · rw [hr] at hcontent
      simp only [bucketContent] at hcontent
      split at hcontent
      · obtain ⟨_, _, rfl⟩ := by simpa using hcontent
        exact hnothing
      · next hnone =>
        -- The object is not remembered, so the store is asked.
        obtain ⟨names, hsub, hread⟩ := w.read_hasRead store path
        have hw : w' = (w.read store path).2 := by
          cases hans : w.read store path with
          | mk answer w₁ =>
            rw [hans] at hcontent
            cases answer <;> exact (Prod.mk.inj (Prod.mk.inj hcontent).2).2.symm
        exact ⟨names, hsub, fun _ => hmemo ▸ hnone, hw ▸ hread⟩

/-- Reading the descriptor reads it at most once, and a run that has got it remembers it. -/
theorem descriptor_hasRead (store : Store) (hr : r.origin = .bucket memo) (w : World) :
    (∃ memo', (r.descriptor store w).2.1.origin = .bucket memo') ∧
      (∀ d, (r.descriptor store w).1 = .ok d →
        ∀ p ∈ r.descriptorPath, ((r.descriptor store w).2.1.memo.get? p).isSome) ∧
      ∃ names, names.Sublist r.descriptorPath.toList ∧
        HasRead names w (r.descriptor store w).2.2 := by
  unfold descriptor
  split
  · exact ⟨⟨memo, hr⟩, (fun d hd => by cases hd), [], List.nil_sublist _, .refl w⟩
  · next path hpath =>
    obtain ⟨hrem, names, hsub, _, hread⟩ := content_hasRead store hr path w
    rw [hpath]
    cases hcontent : r.content store path w with
    | mk result rest =>
      obtain ⟨r', w'⟩ := rest
      rw [hcontent] at hrem hread
      cases result with
      | error e => exact ⟨hrem.bucket, (fun d hd => by cases hd), names, hsub, hread⟩
      | ok bytes =>
        refine ⟨hrem.bucket, fun d _ p hp => ?_, names, hsub, hread⟩
        obtain rfl := Option.some.inj hp
        rw [(content_ok hr hcontent).2.1]
        rfl

/-- A sweep reads paths in their order, and none that is remembered. -/
theorem sweep_hasRead (store : Store) (paths : List String) (failures : Failures)
    (contents : Fields ByteArray) (hr : r.origin = .bucket memo) (w : World) :
    ∃ names, names.Sublist paths ∧ (∀ p ∈ names, r.memo.get? p = none) ∧
      HasRead names w (sweep store paths failures contents r w).2.2 := by
  induction paths generalizing failures contents r w memo with
  | nil => exact ⟨[], List.Sublist.refl _, by simp, .refl w⟩
  | cons path rest ih =>
    obtain ⟨hrem, names, hsub, hfresh, hread⟩ := content_hasRead store hr path w
    have hhead : ∀ p ∈ names, r.memo.get? p = none := by
      intro p hp
      rw [List.mem_singleton.mp (hsub.subset hp)]
      exact hfresh (List.ne_nil_of_mem hp)
    -- The sweep goes on from a run that remembers at least as much.
    have hgo : ∀ (failures : Failures) (contents : Fields ByteArray) (r' : Run) (w' : World),
        Remembers r r' → HasRead names w w' →
        ∃ names, names.Sublist (path :: rest) ∧ (∀ p ∈ names, r.memo.get? p = none) ∧
          HasRead names w (sweep store rest failures contents r' w').2.2 := by
      intro failures contents r' w' hrem' hread'
      obtain ⟨memo', hr'⟩ := hrem'.bucket
      obtain ⟨names', hsub', hfresh', hread''⟩ := ih failures contents hr' w'
      refine ⟨names ++ names', hsub.append hsub', fun p hp => ?_, hread'.trans hread''⟩
      rcases List.mem_append.mp hp with hp | hp
      · exact hhead p hp
      · cases hget : r.memo.get? p with
        | none => rfl
        | some b =>
          have hnone := hfresh' p hp
          rw [hrem'.kept p b hget] at hnone
          cases hnone
    unfold sweep
    cases hcontent : r.content store path w with
    | mk result outcome =>
      obtain ⟨r', w'⟩ := outcome
      rw [hcontent] at hrem hread
      split
      · next heq =>
        obtain ⟨_, hrest⟩ := Prod.mk.inj heq
        obtain ⟨rfl, rfl⟩ := Prod.mk.inj hrest
        exact hgo _ _ r' w' hrem hread
      · next heq =>
        obtain ⟨_, hrest⟩ := Prod.mk.inj heq
        obtain ⟨rfl, rfl⟩ := Prod.mk.inj hrest
        exact ⟨names, hsub.trans (List.singleton_sublist.mpr (by simp)), hhead, hread⟩
      · next heq =>
        obtain ⟨_, hrest⟩ := Prod.mk.inj heq
        obtain ⟨rfl, rfl⟩ := Prod.mk.inj hrest
        exact hgo _ _ r' w' hrem hread

/-- Gathering what is written for a run reads its paths in their order. -/
theorem gather_hasRead (store : Store) (hr : r.origin = .bucket memo) (root : Path) (w : World) :
    ∃ names, names.Sublist r.paths ∧ HasRead names w (r.gather store root w).2.2 := by
  obtain ⟨⟨memo', hr'⟩, hknown, names, hsub, hread⟩ := descriptor_hasRead store hr w
  have hreads := descriptor_reads store r w
  have hdescriptor : names.Sublist r.paths := hsub.trans (List.sublist_append_left _ _)
  unfold gather
  cases hdesc : r.descriptor store w with
  | mk result rest =>
    obtain ⟨r', w'⟩ := rest
    rw [hdesc] at hr' hknown hread hreads
    cases result with
    | error e => exact ⟨names, hdescriptor, hread⟩
    | ok d =>
      have hpaths : r'.paths = r.paths := by
        obtain ⟨origin, hrun⟩ := hreads.run
        rw [show r' = { r with origin } from hrun]
        rfl
      -- The descriptor is remembered by now, so of the paths only the test results are read.
      have hcontents : ∃ names', names'.Sublist r.resultPaths ∧
          HasRead names' w' (r'.contents store w').2.2 := by
        unfold contents
        split
        · exact ⟨[], List.nil_sublist _, .refl w'⟩
        · obtain ⟨names', hsub', hfresh', hread'⟩ :=
            sweep_hasRead store r'.paths {} [] hr' w'
          refine ⟨names', ?_, hread'⟩
          rw [hpaths, paths] at hsub'
          cases hpath : r.descriptorPath with
          | none => simpa [hpath] using hsub'
          | some path =>
            rw [hpath, Option.toList_some, List.singleton_append] at hsub'
            rcases List.sublist_cons_iff.mp hsub' with hsub' | ⟨_, rfl, _⟩
            · exact hsub'
            · have hsome := hknown d rfl path hpath
              rw [hfresh' path (by simp)] at hsome
              cases hsome
      obtain ⟨names', hsub', hread'⟩ := hcontents
      have hall : (names ++ names').Sublist r.paths := hsub.append hsub'
      refine ⟨names ++ names', hall, ?_⟩
      have hboth := hread.trans hread'
      simp only
      split
      · next heq =>
        rw [heq] at hboth
        exact hboth
      · next heq =>
        rw [heq] at hboth
        split <;> exact hboth

/-- Writing a run reads its paths in their order. -/
theorem write_hasRead (store : Store) (hr : r.origin = .bucket memo) (root : Path) (w : World) :
    ∃ names, names.Sublist r.paths ∧ HasRead names w (r.write store root w).2.2 := by
  obtain ⟨names, hsub, hread⟩ := gather_hasRead store hr root w
  refine ⟨names, hsub, ?_⟩
  rw [write_eq]
  cases hgather : r.gather store root w with
  | mk result rest =>
    obtain ⟨r', w'⟩ := rest
    rw [hgather] at hread
    cases result with
    | error e => exact hread
    | ok gathered =>
      -- The files are written without a call.
      have htrace : (w'.writeAll (r'.files root gathered.1 gathered.2)).2.trace = w'.trace := rfl
      obtain ⟨events, hevents, hnames⟩ := hread
      refine ⟨events, ?_, hnames⟩
      rw [← hevents]
      show _ = w'.trace
      rw [← htrace]
      simp only
      split
      · next heq => rw [heq]
      · next heq => rw [heq]

end Run

end RunCache
