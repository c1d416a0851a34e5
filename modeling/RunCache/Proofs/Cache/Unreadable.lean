import RunCache.Proofs.Cache.Collected

/-! # Writing a run that cannot be read

    The descriptor of a run is read on its own before all its paths are, and
    a write ends with the first error of either.  So the failures of all
    paths are told only where the descriptor can be obtained.

    * **`Run.writeContents_signal`**: writing files does not touch the
      signal.
    * **`Run.unfired_of_write`**: a signal that has not fired behind a write
      had not fired on the way.
    * **`Run.write_names_unreadable`**: what a write of a run with paths
      that cannot be obtained ends with. -/

namespace RunCache

namespace Run

variable {store : Store} {answer : String → Except Error ByteArray} {root : Path} {r : Run}
  {w : World} {memo : Fields ByteArray} {path : String}

/-! ## The signal behind a write -/

theorem writeContents_signal (root : Path) (r : Run) (d : Descriptor) (contents : Fields ByteArray)
    (w : World) : (r.writeContents root d contents w).2.signal = w.signal := by
  have hall : ∀ files, (w.writeAll files).2.signal = w.signal := fun files => rfl
  unfold writeContents
  split
  · rfl
  · have hfiles := hall (r.files root d contents)
    simp only
    split
    · next e w' heq =>
      rw [heq] at hfiles
      exact hfiles
    · next w' heq =>
      rw [heq] at hfiles
      exact hfiles

theorem contents_of_fired (store : Store) (r : Run) (h : w.signal.fired = true) :
    (r.contents store w).2.2.signal.fired = true :=
  contents_invariant (P := fun _ w => w.signal.fired = true)
    (fun path r _ hw => (content_of_fired store path r hw).symm ▸ hw) h

/-- The signal has fired behind a write if it had behind the descriptor. -/
theorem unfired_of_write (h : (r.write store root w).2.2.signal.fired = false) :
    (r.descriptor store w).2.2.signal.fired = false ∧
      ∀ d r₁ w₁, r.descriptor store w = (.ok d, r₁, w₁) →
        (r₁.contents store w₁).2.2.signal.fired = false := by
  have hcontents : ∀ d r₁ w₁, r.descriptor store w = (.ok d, r₁, w₁) →
      (r₁.contents store w₁).2.2.signal.fired = false := by
    intro d r₁ w₁ hdesc
    unfold write at h
    simp only [hdesc] at h
    split at h
    · next e r₂ w₂ heq =>
      rw [heq]
      exact h
    · -- Writing the files does not touch the signal.
      next contents r₂ w₂ heq =>
      rw [heq]
      show w₂.signal.fired = false
      rw [← writeContents_signal root r₂ d contents w₂]
      exact h
  refine ⟨?_, hcontents⟩
  cases hdesc : r.descriptor store w with
  | mk result rest =>
    obtain ⟨r₁, w₁⟩ := rest
    cases result with
    | error e =>
      unfold write at h
      simp only [hdesc] at h
      exact h
    | ok d =>
      show w₁.signal.fired = false
      cases hfired : w₁.signal.fired with
      | false => rfl
      | true =>
        have hend := contents_of_fired store r₁ hfired
        rw [hcontents d r₁ w₁ hdesc] at hend
        cases hend

/-! ## The descriptor -/

/-- Unless the signal fires, the descriptor is read out of what its path yields. -/
theorem descriptor_yields (hfixed : store.IsFixed w.disk answer) (hr : r.origin = .bucket memo)
    (hdesc : r.descriptorPath = some path)
    (h : (r.descriptor store w).2.2.signal.fired = false) :
    ∃ memo' w', r.content store path w =
        (yields answer memo path, { r with origin := .bucket memo' }, w') ∧
      Learns answer memo [path] memo' ∧
      r.descriptor store w = ((yields answer memo path).bind parseDescriptor,
        { r with origin := .bucket memo' }, w') := by
  have hstep : (r.content store path w).2.2.signal.fired = false := by
    unfold Run.descriptor at h
    simp only [hdesc] at h
    split at h
    · next e r₁ w₁ heq =>
      rw [heq]
      exact h
    · next bytes r₁ w₁ heq =>
      rw [heq]
      exact h
  obtain ⟨memo', w', hcontent, hlearns⟩ := content_yields hfixed hr hstep
  refine ⟨memo', w', hcontent, hlearns, ?_⟩
  unfold Run.descriptor
  simp only [hdesc, hcontent]
  cases yields answer memo path with
  | error e => rfl
  | ok bytes => rfl

/-! ## Paths that cannot be obtained -/

section Errors

variable {d : Descriptor} {e : Error} {r₁ r₂ : Run} {w₁ w₂ : World}

theorem write_of_descriptor_error (h : r.descriptor store w = (.error e, r₁, w₁)) :
    r.write store root w = (.error e, r₁, w₁) := by
  rw [write, h]

theorem write_of_contents_error (hdesc : r.descriptor store w = (.ok d, r₁, w₁))
    (h : r₁.contents store w₁ = (.error e, r₂, w₂)) :
    r.write store root w = (.error e, r₂, w₂) := by
  unfold write
  simp only [hdesc, h]

end Errors

/-- Where some paths of a run cannot be obtained and the signal does not fire, nothing is written.
    If the descriptor is not among them, the error tells the failures of exactly those paths, in
    their order; if it is, its own error is all that is told, and no other path has been tried. -/
theorem write_names_unreadable (hr : r.origin = .bucket memo) (hdesc : r.descriptorPath = some path)
    (hfixed : store.IsFixed w.disk answer)
    (hparses : ∀ bytes, yields answer memo path = .ok bytes → ∃ d, parseDescriptor bytes = .ok d)
    (hsome : ∃ p ∈ r.paths, ¬ IsObtainable answer memo p)
    (hsignal : (r.write store root w).2.2.signal.fired = false) :
    ∃ e memo' w', r.write store root w = (.error e, { r with origin := .bucket memo' }, w') ∧
      w'.disk = w.disk ∧
      (IsObtainable answer memo path → ∃ failed, e = .fetches r.paths.length failed ∧
        failed = failuresOf (yields answer memo) r.paths ∧
        failed.map Prod.fst = r.paths.filter fun p => ¬ IsObtainable answer memo p) ∧
      (¬ IsObtainable answer memo path → yields answer memo path = .error e ∧ memo' = memo ∧
        w' = (r.content store path w).2.2) := by
  obtain ⟨hunfired, hcontents⟩ := unfired_of_write hsignal
  obtain ⟨memo₁, w₁, hcontent, hlearns, hdescriptor⟩ := descriptor_yields hfixed hr hdesc hunfired
  have hdisk₁ := disk_of_content hcontent
  cases hyield : yields answer memo path with
  | error e =>
    have hnot : ¬ IsObtainable answer memo path := by
      rw [isObtainable_iff, hyield]
      simp
    -- The descriptor has failed alone: the write ends there, and nothing has been learnt.
    rw [hyield] at hcontent hdescriptor
    have hmemo : memo₁ = memo := by
      have hsame := content_error hr hcontent
      have horigin : Origin.bucket memo₁ = .bucket memo := by rw [← hr, ← hsame]
      cases horigin
      rfl
    refine ⟨e, memo₁, w₁, write_of_descriptor_error hdescriptor, hdisk₁,
      fun hobt => absurd hobt hnot, ?_⟩
    intro _
    rw [hcontent]
    exact ⟨rfl, hmemo, rfl⟩
  | ok bytes =>
    have hobt : IsObtainable answer memo path := isObtainable_iff.mpr ⟨bytes, hyield⟩
    obtain ⟨d, hparse⟩ := hparses bytes hyield
    have hparsed : r.descriptor store w = (.ok d, { r with origin := .bucket memo₁ }, w₁) := by
      rw [hdescriptor, hyield]
      show (parseDescriptor bytes, _, _) = _
      rw [hparse]
    -- The contents are read by a run that has learnt the descriptor, so its paths yield the same.
    have hmissing : ¬ ∀ p ∈ r.paths, IsObtainable answer memo₁ p := by
      intro hall
      obtain ⟨p, hp, hnot⟩ := hsome
      have hp := isObtainable_iff.mp (hall p hp)
      rw [hlearns.yields_eq] at hp
      exact hnot (isObtainable_iff.mpr hp)
    obtain ⟨memo', w', hall, hdisk⟩ := contents_of_missing (r := { r with origin := .bucket memo₁ })
      (hdisk₁ ▸ hfixed) rfl (by rw [hdesc]; rfl) hmissing (hcontents d _ w₁ hparsed)
    rw [hlearns.yields_eq] at hall
    refine ⟨.fetches r.paths.length (failuresOf (yields answer memo) r.paths), memo', w',
      write_of_contents_error hparsed hall, hdisk.trans hdisk₁, ?_, fun hnot => absurd hobt hnot⟩
    intro _
    exact ⟨_, rfl, rfl, map_fst_failuresOf _⟩

/-- With its descriptor at hand, a run tells all four of its failures. -/
theorem write_names_unreadable_half :
    ∃ memo' w', halfRun.write halfBucket.store ⟨"/work"⟩ { disk := {} } =
        (.error (.fetches 6 [("junit-c.xml", .noSuchObject "junit-c.xml"), ("", .emptyPath),
          ("junit-b.xml", .fetch "junit-b.xml" "injected read failure"),
          ("junit-c.xml", .noSuchObject "junit-c.xml")]),
          { halfRun with origin := .bucket memo' }, w') ∧
      w'.disk = {} := by
  generalize hw : ({ disk := {} } : World) = w
  have hsignal : (halfRun.write halfBucket.store ⟨"/work"⟩ w).2.2.signal.fired = false := by
    subst hw
    decide +kernel
  have hparses : ∀ bytes, yields halfBucket.body halfRun.memo "prowjob.json" = .ok bytes →
      ∃ d, parseDescriptor bytes = .ok d := by
    intro bytes hbytes
    obtain rfl : "\x7b\x7d".toUTF8 = bytes := Except.ok.inj hbytes
    have hok : (parseDescriptor "\x7b\x7d".toUTF8).isOk = true := by decide +kernel
    cases hparse : parseDescriptor "\x7b\x7d".toUTF8 with
    | error e =>
      rw [hparse] at hok
      cases hok
    | ok d => exact ⟨d, rfl⟩
  have hsome : ∃ p ∈ halfRun.paths, ¬ IsObtainable halfBucket.body halfRun.memo p :=
    ⟨"", by decide, fun h => h.1 rfl⟩
  obtain ⟨e, memo', w', hwrite, hdisk, hall, _⟩ := write_names_unreadable (r := halfRun) rfl rfl
    (halfBucket.store_isFixed w.disk) hparses hsome hsignal
  obtain ⟨failed, rfl, hfailed, _⟩ := hall ⟨by decide, .inl rfl⟩
  refine ⟨memo', w', ?_, ?_⟩
  · rw [hwrite, hfailed]
    rfl
  · rw [hdisk, ← hw]

/-- A run whose descriptor and test result are both missing in an empty bucket. -/
def lostRun : Run where
  job := "job-a"
  id := "1"
  descriptorPath := some "logs/job-a/1/prowjob.json"
  resultPaths := ["logs/job-a/1/artifacts/junit/x.xml"]

/-- Of two paths that cannot be obtained a write tells only the descriptor, as an error of its
    own. -/
theorem write_names_descriptor_alone :
    (lostRun.paths.filter fun p => ¬ IsObtainable ({} : Memory).body lostRun.memo p) =
        ["logs/job-a/1/prowjob.json", "logs/job-a/1/artifacts/junit/x.xml"] ∧
      ∃ e w', lostRun.write ({} : Memory).store ⟨"/work"⟩ { disk := {} } = (.error e, lostRun, w') ∧
        w'.signal.fired = false ∧ ∀ tried failed, e ≠ .fetches tried failed := by
  refine ⟨by decide +kernel, .noSuchObject "logs/job-a/1/prowjob.json", _, rfl, ?_, ?_⟩
  · decide +kernel
  · intro tried failed hfetches
    cases hfetches

end Run

end RunCache
