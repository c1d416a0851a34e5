import RunCache.Bucket.Memory
import RunCache.Proofs.Cache.Contents
import RunCache.Proofs.Text.Occurs

/-! # Collecting the contents of a run

    A sweep over the paths of a run does not stop at a failure.  Unless the
    signal fires, it tries every path, remembers all that could be read,
    and ends with the bytes of all paths or with every failure in turn.

    * **`Store.IsFixed`**: a store that does not change while it is read.
    * **`Run.yields`**: what a path yields.
    * **`Run.Learns`**: what is remembered behind reads.
    * **`Run.content_yields`**: reading one path.
    * **`Run.sweep_collects`**: reading paths one after the other.
    * **`Run.contents_all_or_nothing`**: reading all paths of a run. -/

namespace RunCache

/-! ## Stores that do not change -/

/-- On a disk, a store has one answer to reads of a path whenever it gives one, and leaves it to the
    signal to end an operation. -/
structure Store.IsFixed (store : Store) (d : Disk) (answer : String → Except Error ByteArray) :
    Prop where
  reads : ∀ (w : World) (path : String) (result : Except Error ByteArray), w.disk = d →
    (store.read w path).outcome = some result → result = answer path
  answers : ∀ path, answer path ≠ .error .cancelled

theorem Memory.store_isFixed (m : Memory) (d : Disk) : m.store.IsFixed d m.body := by
  constructor
  · intro w path result _ hresult
    exact (Option.some.inj hresult).symm
  · intro path hcancelled
    unfold Memory.body at hcancelled
    split at hcancelled
    · cases hcancelled
    · split at hcancelled
      · cases hcancelled
      · cases hcancelled

/-! ## The wording of several failures -/

namespace Error

theorem messages_eq_map (failed : List (String × Error)) :
    messages failed = failed.map fun x => x.1 ++ ": " ++ x.2.message := by
  induction failed with
  | nil => rfl
  | cons x rest ih =>
    obtain ⟨path, e⟩ := x
    rw [messages, ih, List.map_cons]

theorem message_fetches (tried : Nat) (failed : List (String × Error)) :
    (fetches tried failed).message = "failed to fetch " ++ toString failed.length ++ " of " ++
      toString (max tried failed.length) ++ " paths: [" ++ ", ".intercalate (messages failed) ++
        "]" := rfl

/-- The failures of a sweep are counted first, against the paths that were tried. -/
theorem startsWith_fetches {tried : Nat} {failed : List (String × Error)}
    (hle : failed.length ≤ tried) :
    Text.startsWith (fetches tried failed).message
      ("failed to fetch " ++ toString failed.length ++ " of " ++ toString tried ++ " paths") =
        true := by
  have htext : (fetches tried failed).message = ("failed to fetch " ++ toString failed.length ++
      " of " ++ toString tried ++ " paths") ++ (": [" ++ ", ".intercalate (messages failed) ++
        "]") := by
    have hpaths : " paths: [" = " paths" ++ ": [" := rfl
    rw [message_fetches, Nat.max_eq_left hle, hpaths]
    simp only [String.append_assoc]
  rw [htext]
  exact Text.startsWith_append _ _

/-- Each failure of a sweep is named with its path. -/
theorem holds_fetches {failed : List (String × Error)} {x : String × Error} (hx : x ∈ failed)
    (tried : Nat) :
    Text.holds (fetches tried failed).message (x.1 ++ ": " ++ x.2.message) = true := by
  have hmem : x.1 ++ ": " ++ x.2.message ∈ messages failed := by
    rw [messages_eq_map]
    exact List.mem_map_of_mem hx
  rw [message_fetches]
  exact Text.holds_append (Text.holds_intercalate hmem) _ _

end Error

namespace Run

variable {store : Store} {answer : String → Except Error ByteArray} {r : Run} {w : World}
  {memo memo' memo'' : Fields ByteArray} {path : String} {paths paths' : List String}

/-! ## What paths yield -/

/-- What a path yields: nothing if it is empty, else what is remembered for it, or else what the
    store answers. -/
def yields (answer : String → Except Error ByteArray) (memo : Fields ByteArray) (path : String) :
    Except Error ByteArray :=
  if path.isEmpty then .error .emptyPath
  else match memo.get? path with
    | some bytes => .ok bytes
    | none => answer path

/-- What a path yields is never that the signal has fired. -/
theorem yields_ne_cancelled {d : Disk} {e : Error} (hfixed : store.IsFixed d answer)
    (h : yields answer memo path = .error e) : e ≠ .cancelled := by
  unfold yields at h
  split at h
  · cases h
    simp
  · split at h
    · cases h
    · intro hcancelled
      exact hfixed.answers path (hcancelled ▸ h)

/-- A path that can be obtained is not empty, and it is remembered or can be read. -/
def IsObtainable (answer : String → Except Error ByteArray) (memo : Fields ByteArray)
    (path : String) : Prop :=
  path ≠ "" ∧ ((memo.get? path).isSome = true ∨ ∃ bytes, answer path = .ok bytes)

theorem isObtainable_iff :
    IsObtainable answer memo path ↔ ∃ bytes, yields answer memo path = .ok bytes := by
  unfold IsObtainable yields
  by_cases hempty : path = ""
  · simp [hempty]
  · cases hget : memo.get? path with
    | some bytes => simp [hempty]
    | none => simp [hempty]

theorem isOk_yields : (yields answer memo path).isOk = true ↔ IsObtainable answer memo path := by
  rw [isObtainable_iff]
  cases yields answer memo path with
  | error e => simp [Except.isOk, Except.toBool]
  | ok bytes => simp [Except.isOk, Except.toBool]

instance : Decidable (IsObtainable answer memo path) := decidable_of_iff _ isOk_yields

/-- The failures among paths, in the order of the paths. -/
def failuresOf (f : String → Except Error ByteArray) (paths : List String) :
    List (String × Error) :=
  paths.filterMap fun path => match f path with
    | .error e => some (path, e)
    | .ok _ => none

section Failures

variable {f : String → Except Error ByteArray}

theorem failuresOf_cons_error {e : Error} (h : f path = .error e) (rest : List String) :
    failuresOf f (path :: rest) = (path, e) :: failuresOf f rest := by
  simp [failuresOf, h]

theorem failuresOf_cons_ok {bytes : ByteArray} (h : f path = .ok bytes) (rest : List String) :
    failuresOf f (path :: rest) = failuresOf f rest := by
  simp [failuresOf, h]

theorem failuresOf_eq_nil_iff :
    failuresOf f paths = [] ↔ ∀ p ∈ paths, ∃ bytes, f p = .ok bytes := by
  unfold failuresOf
  rw [List.filterMap_eq_nil_iff]
  apply forall₂_congr
  intro p _
  cases f p with
  | error e => simp
  | ok bytes => simp

/-- The paths of the failures are those that cannot be obtained. -/
theorem map_fst_failuresOf (paths : List String) :
    (failuresOf (yields answer memo) paths).map Prod.fst =
      paths.filter fun p => ¬ IsObtainable answer memo p := by
  induction paths with
  | nil => rfl
  | cons path rest ih =>
    cases hyield : yields answer memo path with
    | ok bytes =>
      have hhere : IsObtainable answer memo path := isObtainable_iff.mpr ⟨bytes, hyield⟩
      rw [failuresOf_cons_ok hyield, ih, List.filter_cons_of_neg (by simpa using hhere)]
    | error e =>
      have hnot : ¬ IsObtainable answer memo path := by
        rw [isObtainable_iff, hyield]
        simp
      rw [failuresOf_cons_error hyield, List.map_cons, ih,
        List.filter_cons_of_pos (by simpa using hnot)]

end Failures

/-! ## What is learnt -/

/-- What is remembered behind reads of some paths: what was, and in addition all that could be
    read. -/
def Learns (answer : String → Except Error ByteArray) (memo : Fields ByteArray)
    (paths : List String) (memo' : Fields ByteArray) : Prop :=
  ∀ key, memo'.get? key =
    (memo.get? key).or (if key ∈ paths ∧ key ≠ "" then (answer key).toOption else none)

namespace Learns

theorem nil (answer : String → Except Error ByteArray) (memo : Fields ByteArray) :
    Learns answer memo [] memo := by
  intro key
  simp

theorem trans (h : Learns answer memo paths memo') (h' : Learns answer memo' paths' memo'') :
    Learns answer memo (paths ++ paths') memo'' := by
  intro key
  rw [h' key, h key, Option.or_assoc]
  congr 1
  -- A path of both lists has been read with the same bytes, whichever read they come from.
  by_cases hempty : key = ""
  · simp [hempty]
  · by_cases hmem : key ∈ paths
    · by_cases hmem' : key ∈ paths'
      · simp [hempty, hmem, hmem']
      · simp [hempty, hmem, hmem']
    · simp [hempty, hmem]

/-- From an empty path, one that is remembered and one that cannot be read nothing is learnt. -/
theorem same (h : path = "" ∨ (memo.get? path).isSome = true ∨ ∃ e, answer path = .error e) :
    Learns answer memo [path] memo := by
  intro key
  by_cases hkey : key = path
  · subst hkey
    rcases h with hempty | hknown | ⟨e, herror⟩
    · simp [hempty]
    · obtain ⟨bytes, hget⟩ := Option.isSome_iff_exists.mp hknown
      simp [hget]
    · simp [herror, Except.toOption]
  · simp [hkey]

/-- What has been read is remembered. -/
theorem read {bytes : ByteArray} (hpath : path ≠ "") (hget : memo.get? path = none)
    (hanswer : answer path = .ok bytes) : Learns answer memo [path] (memo.insert path bytes) := by
  intro key
  rw [Fields.get_insert]
  by_cases hkey : path = key
  · subst hkey
    simp [hget, hpath, hanswer, Except.toOption]
  · simp [hkey, Ne.symm hkey]

/-- What is learnt changes nothing about what paths yield. -/
theorem yields_eq (h : Learns answer memo paths memo') :
    yields answer memo' = yields answer memo := by
  funext key
  unfold yields
  rw [h key]
  by_cases hempty : key.isEmpty = true
  · rw [if_pos hempty, if_pos hempty]
  · rw [if_neg hempty, if_neg hempty]
    cases hget : memo.get? key with
    | some bytes => rfl
    | none =>
      -- What has been learnt for the key is what the store answers.
      show (match (if key ∈ paths ∧ key ≠ "" then (answer key).toOption else none) with
        | some bytes => .ok bytes
        | none => answer key) = answer key
      split
      · next bytes hlearnt =>
        split at hlearnt
        · cases hanswer : answer key with
          | error e =>
            rw [hanswer] at hlearnt
            cases hlearnt
          | ok b =>
            rw [hanswer] at hlearnt
            rw [Option.some.inj hlearnt]
        · cases hlearnt
      · rfl

end Learns

/-! ## Reading one path -/

theorem eq_with_origin (hr : r.origin = .bucket memo) : { r with origin := .bucket memo } = r := by
  rw [← hr]

/-- Unless the signal fires, reading a path gives what it yields, which is remembered. -/
theorem content_yields (hfixed : store.IsFixed w.disk answer) (hr : r.origin = .bucket memo)
    (h : (r.content store path w).2.2.signal.fired = false) :
    ∃ memo' w', r.content store path w =
        (yields answer memo path, { r with origin := .bucket memo' }, w') ∧
      Learns answer memo [path] memo' := by
  unfold content at h ⊢
  unfold yields
  by_cases hempty : path.isEmpty = true
  · rw [if_pos hempty, if_pos hempty]
    refine ⟨memo, w, ?_, .same (.inl (by simpa using hempty))⟩
    rw [eq_with_origin hr]
  · rw [if_neg hempty] at h
    rw [if_neg hempty, if_neg hempty]
    simp only [hr, bucketContent] at h ⊢
    cases hget : memo.get? path with
    | some bytes =>
      refine ⟨memo, w, ?_, .same (.inr (.inl (by rw [hget]; rfl)))⟩
      rw [eq_with_origin hr]
    | none =>
      simp only [hget] at h
      -- The store is asked, and its answer is there before the signal fires.
      cases hread : w.read store path with
      | mk result w' =>
        rw [hread] at h
        have hunfired : (w.read store path).2.signal.fired = false := by
          rw [hread]
          cases result with
          | error e => exact h
          | ok bytes => exact h
        have hanswer : result = answer path := by
          apply hfixed.reads w path result rfl
          have houtcome := World.outcome_of_unfired hunfired
          rw [houtcome]
          show some (w.read store path).1 = _
          rw [hread]
        cases result with
        | error e =>
          refine ⟨memo, w', ?_, .same (.inr (.inr ⟨e, hanswer.symm⟩))⟩
          rw [← hanswer, eq_with_origin hr]
        | ok bytes =>
          refine ⟨memo.insert path bytes, w', ?_, .read (by simpa using hempty) hget hanswer.symm⟩
          rw [← hanswer]

/-! ## Reading paths in turn -/

/-- No call is begun once the signal has fired. -/
theorem content_of_fired (store : Store) (path : String) (r : Run) (h : w.signal.fired = true) :
    (r.content store path w).2.2 = w := by
  unfold content
  split
  · rfl
  · split
    · unfold bucketContent
      split
      · rfl
      · rw [World.read, World.call, if_pos h]
    · simp only [cachedContent]
      split
      · rfl
      · rw [World.call, if_pos h]

/-- A signal that has not fired behind a sweep had not fired on the way. -/
theorem unfired_of_sweep {failures : Failures} {contents : Fields ByteArray}
    (h : (sweep store paths failures contents r w).2.2.signal.fired = false) :
    w.signal.fired = false := by
  cases hfired : w.signal.fired with
  | false => rfl
  | true =>
    have hend := sweep_invariant (P := fun _ w => w.signal.fired = true)
      (fun path r w hw => (content_of_fired store path r hw).symm ▸ hw) paths failures contents
      (r := r) hfired
    rw [hend] at h
    cases h

section Step

variable {r' : Run} {w' : World} {result : Except Error ByteArray} {failures : Failures}
  {contents : Fields ByteArray}

theorem disk_of_content (h : r.content store path w = (result, r', w')) : w'.disk = w.disk := by
  have hreads := content_reads store path r w
  rw [h] at hreads
  exact hreads.calls.disk

theorem unfired_of_sweep_cons
    (h : (sweep store (path :: paths) failures contents r w).2.2.signal.fired = false) :
    (r.content store path w).2.2.signal.fired = false := by
  unfold sweep at h
  split at h
  · next bytes r₁ w₁ heq =>
    rw [heq]
    exact unfired_of_sweep h
  · -- The sweep ends here, in the world that the read has left.
    next r₁ w₁ heq =>
    rw [heq]
    exact h
  · next e r₁ w₁ _ heq =>
    rw [heq]
    exact unfired_of_sweep h

end Step

/-- Unless the signal fires, a sweep tries all paths: it ends with every failure, or where there is
    none with the bytes of every path, and has learnt all that could be read. -/
theorem sweep_collects {failures : Failures} {contents : Fields ByteArray}
    (hfixed : store.IsFixed w.disk answer) (hr : r.origin = .bucket memo)
    (h : (sweep store paths failures contents r w).2.2.signal.fired = false) :
    ∃ memo' w', sweep store paths failures contents r w =
        ((⟨failures.tried + paths.length,
            failures.failed ++ failuresOf (yields answer memo) paths⟩ : Failures).check.map fun _ =>
          gathered (fun p => (yields answer memo p).toOption.getD .empty)
            (paths.filter fun p => (yields answer memo p).isOk) contents,
          { r with origin := .bucket memo' }, w') ∧
      Learns answer memo paths memo' := by
  induction paths generalizing failures contents r w memo with
  | nil =>
    refine ⟨memo, w, ?_, .nil answer memo⟩
    show (failures.check.map _, r, w) = _
    rw [eq_with_origin hr]
    simp [failuresOf, gathered]
  | cons path rest ih =>
    -- One path is read; what is left is swept with what it has taught, and yields the same.  Bytes
    -- are gathered of the paths that yield some, so both cases go on alike.
    obtain ⟨memo₁, w₁, hcontent, hlearns⟩ := content_yields hfixed hr (unfired_of_sweep_cons h)
    have hdisk := disk_of_content hcontent
    have hsame := hlearns.yields_eq
    have hcount : failures.tried + 1 + rest.length = failures.tried + (path :: rest).length := by
      rw [List.length_cons]
      omega
    cases hyield : yields answer memo path with
    | ok bytes =>
      rw [hyield] at hcontent
      have hok : (yields answer memo path).isOk = true := by
        rw [hyield]
        rfl
      have hbytes : (yields answer memo path).toOption.getD .empty = bytes := by
        rw [hyield]
        rfl
      rw [sweep_cons_ok hcontent] at h ⊢
      obtain ⟨memo', w', hsweep, hrest⟩ := ih (hdisk ▸ hfixed) rfl h
      refine ⟨memo', w', ?_, hlearns.trans hrest⟩
      rw [hsweep, hsame, failuresOf_cons_ok hyield, List.filter_cons, if_pos hok, ← hcount,
        gathered, gathered, List.foldl_cons, hbytes]
      rfl
    | error e =>
      rw [hyield] at hcontent
      have hok : (yields answer memo path).isOk = false := by
        rw [hyield]
        rfl
      rw [sweep_cons_error (yields_ne_cancelled hfixed hyield) hcontent] at h ⊢
      obtain ⟨memo', w', hsweep, hrest⟩ := ih (hdisk ▸ hfixed) rfl h
      refine ⟨memo', w', ?_, hlearns.trans hrest⟩
      rw [hsweep, hsame, failuresOf_cons_error hyield, List.filter_cons, if_neg (by simp [hok]),
        ← hcount, ← List.singleton_append, ← List.append_assoc]
      rfl

/-! ## Reading all paths -/

theorem length_failuresOf_le (f : String → Except Error ByteArray) (paths : List String) :
    (failuresOf f paths).length ≤ paths.length := List.length_filterMap_le _ _

/-- Where some paths cannot be obtained, a sweep over all ends with their failures. -/
theorem check_of_missing {α : Type} (hmissing : ¬ ∀ p ∈ paths, IsObtainable answer memo p)
    (tried : Nat) (f : Unit → α) :
    (⟨tried, failuresOf (yields answer memo) paths⟩ : Failures).check.map f =
      .error (.fetches tried (failuresOf (yields answer memo) paths)) := by
  have hfailed : failuresOf (yields answer memo) paths ≠ [] := by
    intro hnone
    exact hmissing fun p hp => isObtainable_iff.mpr (failuresOf_eq_nil_iff.mp hnone p hp)
  rw [Failures.check, if_neg (by simpa using hfailed)]
  rfl

/-- Unless the signal fires, the contents of a run are those of all its paths, or else every failure
    is told. -/
theorem contents_collects (hfixed : store.IsFixed w.disk answer) (hr : r.origin = .bucket memo)
    (hdesc : r.descriptorPath.isSome)
    (h : (r.contents store w).2.2.signal.fired = false) :
    ∃ memo' w', r.contents store w =
        ((⟨r.paths.length, failuresOf (yields answer memo) r.paths⟩ : Failures).check.map fun _ =>
          gathered (fun p => (yields answer memo p).toOption.getD .empty)
            (r.paths.filter fun p => (yields answer memo p).isOk) [],
          { r with origin := .bucket memo' }, w') ∧
      Learns answer memo r.paths memo' := by
  obtain ⟨path, hpath⟩ := Option.isSome_iff_exists.mp hdesc
  have hsweep : r.contents store w = sweep store r.paths {} [] r w := by
    rw [Run.contents, hpath]
  rw [hsweep] at h ⊢
  obtain ⟨memo', w', heq, hlearns⟩ := sweep_collects hfixed hr h
  refine ⟨memo', w', ?_, hlearns⟩
  rw [heq]
  simp only [Nat.zero_add, List.nil_append]

/-- Where some of its paths cannot be obtained, the contents of a run are their failures. -/
theorem contents_of_missing (hfixed : store.IsFixed w.disk answer) (hr : r.origin = .bucket memo)
    (hdesc : r.descriptorPath.isSome) (hmissing : ¬ ∀ p ∈ r.paths, IsObtainable answer memo p)
    (h : (r.contents store w).2.2.signal.fired = false) :
    ∃ memo' w', r.contents store w =
        (.error (.fetches r.paths.length (failuresOf (yields answer memo) r.paths)),
          { r with origin := .bucket memo' }, w') ∧
      w'.disk = w.disk := by
  obtain ⟨memo', w', hcontents, _⟩ := contents_collects hfixed hr hdesc h
  rw [check_of_missing hmissing] at hcontents
  have hreads := contents_reads store r w
  rw [hcontents] at hreads
  exact ⟨memo', w', hcontents, hreads.calls.disk⟩

/-- The contents of a run are all or nothing.  Where each of its paths is remembered or can be read,
    they are the bytes of exactly its paths; where not, they are every failure in the order of the
    paths, each with its own error.  Either way the run remembers afterwards all that could be
    read. -/
theorem contents_all_or_nothing (hr : r.origin = .bucket memo) (hdesc : r.descriptorPath.isSome)
    (hfixed : store.IsFixed w.disk answer)
    (hsignal : (r.contents store w).2.2.signal.fired = false) :
    ∃ result memo' w', r.contents store w = (result, { r with origin := .bucket memo' }, w') ∧
      Learns answer memo r.paths memo' ∧
      ((∀ p ∈ r.paths, IsObtainable answer memo p) → ∃ contents, result = .ok contents ∧
        contents.Sorted ∧ ∀ p bytes, (p, bytes) ∈ contents ↔
          p ∈ r.paths ∧ yields answer memo p = .ok bytes) ∧
      (¬ (∀ p ∈ r.paths, IsObtainable answer memo p) → ∃ failed,
        failed = failuresOf (yields answer memo) r.paths ∧
        failed.map Prod.fst = r.paths.filter (fun p => ¬ IsObtainable answer memo p) ∧
        result = .error (.fetches r.paths.length failed) ∧
        Text.startsWith (Error.fetches r.paths.length failed).message
          ("failed to fetch " ++ toString failed.length ++ " of " ++ toString r.paths.length ++
            " paths") = true ∧
        ∀ x ∈ failed, Text.holds (Error.fetches r.paths.length failed).message
          (x.1 ++ ": " ++ x.2.message) = true) := by
  obtain ⟨memo', w', hcontents, hlearns⟩ := contents_collects hfixed hr hdesc hsignal
  refine ⟨_, memo', w', hcontents, hlearns, ?_, ?_⟩
  · -- No path fails, so the paths that yield bytes are all of them.
    intro hall
    have hyields : ∀ p ∈ r.paths, ∃ bytes, yields answer memo p = .ok bytes :=
      fun p hp => isObtainable_iff.mp (hall p hp)
    have hnone : failuresOf (yields answer memo) r.paths = [] := failuresOf_eq_nil_iff.mpr hyields
    have hfilter : (r.paths.filter fun p => (yields answer memo p).isOk) = r.paths := by
      apply List.filter_eq_self.mpr
      intro p hp
      obtain ⟨bytes, hbytes⟩ := hyields p hp
      rw [hbytes]
      rfl
    rw [hnone, hfilter]
    refine ⟨_, rfl, sorted_gathered _ _ Fields.sorted_nil, ?_⟩
    intro p bytes
    rw [mem_gathered_iff]
    apply and_congr_right
    intro hp
    obtain ⟨b, hb⟩ := hyields p hp
    rw [hb]
    show bytes = b ↔ _
    rw [Except.ok.injEq, eq_comm]
  · intro hmissing
    refine ⟨_, rfl, map_fst_failuresOf _, check_of_missing hmissing _ _,
      Error.startsWith_fetches (length_failuresOf_le _ _), ?_⟩
    intro x hx
    exact Error.holds_fetches hx _

/-- A bucket with an object that can be read and one that cannot. -/
def halfBucket : Memory where
  objects := [("junit-a.xml", ⟨"a".toUTF8, 0⟩), ("junit-b.xml", ⟨"b".toUTF8, 0⟩)]
  brokenReads := ["junit-b.xml"]

/-- A run that remembers its descriptor, and whose test results are in part empty, missing, repeated
    and broken. -/
def halfRun : Run where
  job := "job"
  id := "1"
  descriptorPath := some "prowjob.json"
  resultPaths := ["junit-c.xml", "", "junit-a.xml", "junit-b.xml", "junit-c.xml"]
  origin := .bucket [("prowjob.json", "\x7b\x7d".toUTF8)]

/-- Four failures are told in turn, and the one result that can be read is remembered. -/
theorem contents_all_or_nothing_half :
    ∃ memo' w', halfRun.contents halfBucket.store { disk := {} } =
        (.error (.fetches 6 [("junit-c.xml", .noSuchObject "junit-c.xml"), ("", .emptyPath),
          ("junit-b.xml", .fetch "junit-b.xml" "injected read failure"),
          ("junit-c.xml", .noSuchObject "junit-c.xml")]),
          { halfRun with origin := .bucket memo' }, w') ∧
      memo'.get? "prowjob.json" = some "\x7b\x7d".toUTF8 ∧
      memo'.get? "junit-a.xml" = some "a".toUTF8 ∧ memo'.get? "junit-b.xml" = none := by
  generalize hw : ({ disk := {} } : World) = w
  have hsignal : (halfRun.contents halfBucket.store w).2.2.signal.fired = false := by
    subst hw
    decide +kernel
  obtain ⟨result, memo', w', hcontents, hlearns, _, hfailures⟩ :=
    contents_all_or_nothing (r := halfRun) rfl rfl (halfBucket.store_isFixed w.disk) hsignal
  have hmissing : ¬ ∀ p ∈ halfRun.paths, IsObtainable halfBucket.body halfRun.memo p := by
    -- The empty path is among them.
    intro hall
    exact (hall "" (by decide)).1 rfl
  obtain ⟨failed, hfailed, _, hresult, _⟩ := hfailures hmissing
  refine ⟨memo', w', ?_, ?_, ?_, ?_⟩
  · rw [hcontents, hresult, hfailed]
    rfl
  · rw [hlearns]
    rfl
  · rw [hlearns]
    rfl
  · rw [hlearns]
    rfl

end Run

end RunCache
