import WebAnalyticsDb.Ledger.Scan

/-!
# Damage is never taken for an interrupted append

A segment file with one byte changed is refused by the scan, and the scan leaves it as it is. Every
byte of the file is under a checksum or under a check for zeros: the segment header under its own, the
first eighty bytes of a frame under the checksum of the frame header, the rest of the frame under that
of the frame.

* **The length of a frame is believed only after its checksum.** So no damage makes a frame appear to
  reach beyond the end of the file, which is the one case in which the scan cuts something off.
* `Refused` is the postcondition throughout: the files are as they were, and unless a call failed or a
  deadline passed the error is corruption.
-/

namespace WebAnalyticsDb

open Bytes List

/-! ### Damaged headers and frames -/

/-- **A checksum behind what it covers** notices damage to either. -/
theorem crc32c_slice_ne {body q : Bytes} {n : ℕ} (hn : n = body.length)
    (h : Damaged (body ++ ofNatLE 4 (crc32c body)) q) (rest : Bytes) :
    crc32c (slice (q ++ rest) 0 n) ≠ getLE 4 (q ++ rest) n := by
  rcases h.append_cases with ⟨body', hbody, rfl⟩ | ⟨crc, hcrc, rfl⟩
  · rw [append_assoc, slice_append_head (hn.trans hbody.length_eq.symm),
      getLE_append_mid (hn.trans hbody.length_eq.symm) (crc32c_lt body)]
    exact crc32c_ne_of_damaged hbody
  · have hlen : crc.length = 4 := by rw [hcrc.length_eq, length_ofNatLE]
    have hne := toNatLE_ne_of_damaged hcrc
    rw [toNatLE_ofNatLE_of_lt (crc32c_lt body)] at hne
    rw [append_assoc, slice_append_head hn, getLE, slice_append_mid hn hlen.symm]
    exact hne.symm

theorem isZero_of_damaged {n : ℕ} {q : Bytes} (h : Damaged (zeros n) q) : isZero q = false := by
  have hne := h.ne
  rw [← Bool.not_eq_true, isZero_iff, h.length_eq, length_zeros]
  exact hne

/-- A damaged segment header is corrupt. -/
theorem segmentDecode_damaged {h : SegmentHeader} {q : Bytes}
    (hq : Damaged (h.parts.flatten ++ ofNatLE 4 (crc32c h.parts.flatten)) q) :
    ∃ e, segmentDecode q = .error e ∧ e.code = .corrupt := by
  have hcrc : crc32c (slice q 0 124) ≠ getLE 4 q 124 := by
    have := crc32c_slice_ne h.length_parts.symm hq []
    rwa [append_nil] at this
  unfold segmentDecode
  rw [if_pos hcrc]
  split <;> exact ⟨_, rfl, rfl⟩

/-- A damaged frame header is corrupt. -/
theorem frameInspect_damaged {h : FrameHeader} {total : ℕ} {q : Bytes}
    (hq : Damaged (h.image total) q) : ∃ e, frameInspect q = .error e ∧ e.code = .corrupt := by
  refine ⟨⟨.corrupt, "invalid frame header or checksum"⟩, ?_, rfl⟩
  rw [frameInspect, if_pos]
  rw [FrameHeader.image, ← append_assoc] at hq
  rcases hq.append_cases with ⟨q', hq', rfl⟩ | ⟨pad, hpad, rfl⟩
  · exact .inr (.inr (.inr (.inl (crc32c_slice_ne (h.length_parts total).symm hq' _))))
  · have hlen : pad.length = 4 := by rw [hpad.length_eq, length_zeros]
    have hslice : slice ((h.parts total).flatten ++ ofNatLE 4 (crc32c (h.parts total).flatten) ++ pad)
        76 4 = pad := by
      have hpre : ((h.parts total).flatten ++ ofNatLE 4 (crc32c (h.parts total).flatten)).length = 76 := by
        rw [length_append, h.length_parts, length_ofNatLE]
      rw [slice_append_right hpre.le, hpre, Nat.sub_self, ← hlen, slice_zero_length]
    rw [hslice]
    exact .inr (.inr (.inr (.inr (.inr (isZero_of_damaged hpad)))))

theorem frameInspect_error {p : Bytes} {e : Error} (h : frameInspect p = .error e) :
    e.code = .corrupt := by
  unfold frameInspect at h
  split at h
  · cases h
    rfl
  · split at h
    · cases h
      rfl
    · split at h <;> cases h
      rfl

/-- A damaged frame is corrupt. -/
theorem frameDecode_damaged {f : Frame} {total : ℕ} {q : Bytes} (hq : Damaged (f.image total) q) :
    ∃ e, frameDecode q = .error e ∧ e.code = .corrupt := by
  have hcrc : crc32c (slice q 0 (q.length - 4)) ≠ getLE 4 q (q.length - 4) := by
    have hlen : q.length - 4 = (f.body total).length := by
      rw [hq.length_eq, Frame.image, length_append, length_ofNatLE, Nat.add_sub_cancel]
    have := crc32c_slice_ne hlen hq []
    rwa [append_nil] at this
  unfold frameDecode
  split
  next e he => exact ⟨e, rfl, frameInspect_error he⟩
  next h total' _ =>
    rw [if_pos (.inr (.inr (.inr hcrc)))]
    exact ⟨_, rfl, rfl⟩

/-! ### The scan of a damaged file -/

/-- **The file was refused**: it is as it was, and the error is corruption unless a call failed or the
deadline passed. -/
def Refused {α μ : Type} (env : Env Path Dir) (deadline : ℕ) (fs : Files) :
    Exit Error α → Files → μ → Prop
  | .ok _, _, _ => False
  | .fail e, fs', _ => fs' = fs ∧ (Undisturbed env deadline → e.code = .corrupt)
  | .killed, fs', _ => fs' = fs ∧ ¬ Undisturbed env deadline

section Scan

variable {c : Config} {μ : Type} {s : LogSegment c} {e : Entry c} {seq : ℕ} {time : ℤ} {x : Scan}
  {env : Env Path Dir} {fs : Files} {n deadline : ℕ} {m : SegmentMeta} {f : File} {mem : μ}
  {q rest : Bytes}

/-- **A damaged frame is refused.** -/
theorem wp_scanFrame_damaged (hpath : m.segPath = s.segPath) (hnext : (s.push e).Ok seq time)
    (hf : fs s.segPath = some f) (hdata : f.data = s.image ++ (q ++ rest))
    (hq : Damaged (s.frameOf e.group).bytes q) (hlen : f.data.length ≤ int64Max)
    (hx : ScanOf s seq time x) :
    wp (scanFrame c m f.data.length deadline x) env (Refused env deadline fs) ⟨fs, n, mem⟩ := by
  obtain ⟨hframe, -⟩ := hnext.pushed
  have hqlen : q.length = (s.frameOf e.group).size := by rw [hq.length_eq, Frame.length_bytes]
  have hsize : 96 ≤ (s.frameOf e.group).size := hframe.size_bounds.1
  have hflen : f.data.length = s.size + (s.frameOf e.group).size + rest.length := by
    rw [hdata, length_append, length_append, LogSegment.length_image, hqlen, Nat.add_assoc]
  refine wp_scanFrame (hpath ▸ hf) hlen (fun h _ ↦ ⟨rfl, fun hu ↦ (h hu).elim⟩) (fun h ↦ ⟨rfl, h⟩) ?_
  rw [hx.offset, if_neg (by unfold frameHeaderBytes; omega)]
  obtain ⟨more, hmore⟩ := Frame.image_eq_append (s.frameOf e.group) (s.frameOf e.group).size
  have hsplit := hq
  rw [Frame.bytes, hmore] at hsplit
  rcases hsplit.append_cases with ⟨head, hhead, rfl⟩ | ⟨more', -, rfl⟩
  · -- damage to the frame header
    have hslice : slice f.data s.size frameHeaderBytes = head := by
      rw [hdata, append_assoc]
      refine slice_append_mid s.length_image.symm ?_
      rw [hhead.length_eq, FrameHeader.length_image]
      rfl
    obtain ⟨err, herr, hcode⟩ := frameInspect_damaged hhead
    rw [hslice, herr]
    exact ⟨rfl, fun _ ↦ hcode⟩
  · -- damage behind the header, whose length can be believed
    have hslice : slice f.data s.size frameHeaderBytes =
        (s.frameOf e.group).header.image (s.frameOf e.group).size ++ [] := by
      rw [hdata, append_assoc, append_nil]
      exact slice_append_mid s.length_image.symm (FrameHeader.length_image _ _).symm
    have hinspect : frameInspect ((s.frameOf e.group).header.image (s.frameOf e.group).size ++ []) =
        .ok ((s.frameOf e.group).header, (s.frameOf e.group).size) := hframe.inspect []
    rw [hslice, hinspect]
    dsimp only
    obtain ⟨err, herr, hcode⟩ := frameDecode_damaged hq
    rw [if_neg (by omega), hdata, slice_append_mid s.length_image.symm hqlen.symm, herr]
    exact ⟨rfl, fun _ ↦ hcode⟩

/-- **The frame loop refuses a file with a damaged frame.** The frames before it are read as usual. -/
theorem wp_scanLoop_damaged {es : List (Entry c)} {fuel : ℕ} (hpath : m.segPath = s.segPath)
    (hday : m.dayStart = s.day) (hr : s.retired = false)
    (hs : (s.withEntries (es ++ [e])).Ok seq time) (hf : fs s.segPath = some f)
    (hdata : f.data = (s.withEntries es).image ++ (q ++ rest))
    (hq : Damaged ((s.withEntries es).frameOf e.group).bytes q)
    (hlen : f.data.length ≤ int64Max) (hx : ScanOf (s.withEntries []) seq time x)
    (hfuel : es.length < fuel) :
    wp (scanLoop c m f.data.length deadline fuel x) env (Refused env deadline fs)
      ⟨fs, n, mem⟩ := by
  obtain ⟨fuel, rfl⟩ : ∃ k, fuel = es.length + (k + 1) := ⟨fuel - es.length - 1, by omega⟩
  have hnext : ((s.withEntries es).push e).Ok seq time := hs
  refine wp_scanLoop_front [] hpath hday hr (hs.front hr) hf hdata hlen hx (fun x n hx ↦ ?_)
    (fun h err ↦ ⟨rfl, fun hu ↦ (h hu).elim⟩) fun h ↦ ⟨rfl, h⟩
  have hlt : (s.withEntries es).size < f.data.length := by
    have hsize := hnext.pushed.1.size_bounds.1
    have hqlen := hq.length_eq
    rw [Frame.length_bytes] at hqlen
    unfold LogSegment.frameOf at hqlen
    rw [hdata, length_append, length_append, LogSegment.length_image]
    omega
  rw [scanLoop, hx.offset, nil_append, if_pos hlt]
  refine wp_bind ((wp_scanFrame_damaged (s := s.withEntries es) hpath hnext hf hdata hq hlen hx).mono ?_)
  rintro (_ | err | _) fs' mem' h
  · exact h.elim
  · exact h
  · exact h

end Scan

/-! ### Recovery of a damaged file -/

section Recover

variable {c : Config} {μ : Type} {s : LogSegment c} {seq : ℕ} {time : ℤ} {env : Env Path Dir}
  {fs : Files} {n deadline : ℕ} {m : SegmentMeta} {f : File} {mem : μ} {b force : Bool} {p : Bytes}

/-- **Where the damage is**: in the header of the file or in one of its frames. -/
theorem LogSegment.damaged_image (s : LogSegment c) {es : List (Entry c)}
    (h : Damaged (s.withEntries es).image p) :
    (∃ q rest, p = q ++ rest ∧
      Damaged (s.header.parts.flatten ++ ofNatLE 4 (crc32c s.header.parts.flatten)) q) ∨
    ∃ es₁ e es₂ q rest, es = es₁ ++ [e] ++ es₂ ∧ p = (s.withEntries es₁).image ++ (q ++ rest) ∧
      Damaged ((s.withEntries es₁).frameOf e.group).bytes q := by
  induction es using List.reverseRecOn generalizing p with
  | nil =>
    refine .inl ⟨p, [], by simp, ?_⟩
    have himage : (s.withEntries []).image =
        s.header.parts.flatten ++ ofNatLE 4 (crc32c s.header.parts.flatten) := append_nil _
    rwa [himage] at h
  | append_singleton es e ih =>
    rw [← LogSegment.push_withEntries, LogSegment.image_push] at h
    rcases h.append_cases with ⟨p', hp', rfl⟩ | ⟨q, hq, rfl⟩
    · rcases ih hp' with ⟨q, rest, rfl, hq⟩ | ⟨es₁, e', es₂, q, rest, rfl, rfl, hq⟩
      · exact .inl ⟨q, _, append_assoc _ _ _, hq⟩
      · exact .inr ⟨es₁, e', es₂ ++ [e], q, _, by simp,
          (append_assoc _ _ _).trans (congrArg _ (append_assoc _ _ _)), hq⟩
    · exact .inr ⟨es, e, [], q, [], by simp, by simp, hq⟩

/-- The frames of a damaged segment are refused. -/
theorem wp_scanSegment_damaged {es₁ es₂ : List (Entry c)} {e : Entry c} {q rest : Bytes}
    (hm : RecordOf m s b) (hr : s.retired = false) (hs : s.Ok seq time) (hf : fs s.segPath = some f)
    (hes : s.entries = es₁ ++ [e] ++ es₂) (hdata : f.data = (s.withEntries es₁).image ++ (q ++ rest))
    (hq : Damaged ((s.withEntries es₁).frameOf e.group).bytes q) (hlen : f.data.length = s.size) :
    wp (scanSegment c m force deadline f.data.length seq time) env (Refused env deadline fs)
      ⟨fs, n, mem⟩ := by
  have hfront : (s.withEntries (es₁ ++ [e])).Ok seq time := by
    have hall : (s.withEntries (es₁ ++ [e] ++ es₂)).Ok seq time := by
      rw [← hes]
      exact hs
    exact hall.front hr
  have hfuel : es₁.length < f.data.length := by
    have hle := hs.groups.length_le
    have hgroups : s.groups.length = s.entries.length := length_map _
    rw [hes, length_append, length_append] at hgroups
    rw [hlen, LogSegment.size]
    unfold segmentHeaderBytes LogSegment.frames
    omega
  unfold scanSegment
  refine wp_bind (wp_dictionaryNew c.schema c.dictionaryLimit_bounds.2
    (fun d hrep htight hschema hlimit _ n ↦ ?_) (fun _ _ hover ↦ ?_)
    fun e _ h ↦ ⟨rfl, fun hu ↦ (disturbed h hu).elim⟩)
  swap
  · exact absurd hs.budget (not_le.2 hover)
  have hstart : ScanOf (s.withEntries []) seq time
      ⟨segmentHeaderBytes, 0, 0, 0, seq, time, .empty, d⟩ :=
    ⟨rfl, rfl, rfl, rfl, rfl, rfl, rfl, hrep, htight, hschema, hlimit⟩
  refine wp_bind ((wp_scanLoop_damaged hm.segPath hm.day hr hfront hf hdata hq
    (hlen ▸ hs.size_le_int64Max) hstart hfuel).mono ?_)
  rintro (_ | err | _) fs' mem' h
  · exact h.elim
  · exact h
  · exact h

/-- **One damaged byte is found and nothing is cut off.** The recovery scan of a segment file whose
frames are complete refuses the file after any byte of it was changed, whatever the environment does;
if no call fails, the error is corruption. -/
theorem wp_recoverSegment_damaged (hm : RecordOf m s b) (hr : s.retired = false)
    (hs : s.Ok seq time) (hscan : b = true ∨ force = true) (hf : fs s.segPath = some f)
    (hdamage : Damaged s.image f.data) :
    wp (recoverSegment c m force deadline seq time) env (Refused env deadline fs)
      ⟨fs, n, mem⟩ := by
  have hflen : f.data.length = s.size := by rw [hdamage.length_eq, LogSegment.length_image]
  have hstate := hm.state.trans (LogSegment.state_of_not_retired hr)
  have hsize : segmentHeaderBytes ≤ f.data.length ∧
      (m.state = .active ∨ f.data.length = m.committedBytes) ∧ m.committedBytes ≤ f.data.length := by
    refine ⟨?_, ?_, hflen ▸ hm.bytes⟩
    · rw [hflen, LogSegment.size]
      exact Nat.le_add_right _ _
    · cases b with
      | true => exact .inl hstate
      | false => exact .inr (by rw [hflen, hm.exact rfl]; rfl)
  unfold recoverSegment
  refine wp_bind (wp_openSegment (hm.segPath ▸ hf) (absurd hsize) (fun h _ hdec n ↦ ?_) (fun e he ↦ ?_)
    (fun h e ↦ ⟨rfl, fun hu ↦ (disturbed h hu).elim⟩) fun h ↦ ⟨rfl, disturbed h⟩)
  · -- the header is intact, so the damage is in a frame
    refine wp_bind (wp_require (fun _ n ↦ ?_) fun _ ↦ ⟨rfl, fun _ ↦ rfl⟩)
    rw [if_neg]
    swap
    · rintro ⟨hne, hforce⟩
      rcases hscan with rfl | rfl
      · exact hne hstate
      · cases hforce
    rcases s.damaged_image (show Damaged (s.withEntries s.entries).image f.data from hdamage) with
      ⟨q, rest, hdata, hq⟩ | ⟨es₁, e, es₂, q, rest, hes, hdata, hq⟩
    · obtain ⟨err, herr, -⟩ := segmentDecode_damaged hq
      rw [hdata, slice_append_head (by rw [hq.length_eq, s.length_header]), herr] at hdec
      cases hdec
    · exact wp_scanSegment_damaged hm hr hs hf hes hdata hq hflen
  · refine ⟨rfl, fun _ ↦ ?_⟩
    rcases s.damaged_image (show Damaged (s.withEntries s.entries).image f.data from hdamage) with
      ⟨q, rest, hdata, hq⟩ | ⟨es₁, e', es₂, q, rest, hes, hdata, hq⟩
    · obtain ⟨err, herr, hcode⟩ := segmentDecode_damaged hq
      rw [hdata, slice_append_head (by rw [hq.length_eq, s.length_header]), herr] at he
      cases he
      exact hcode
    · -- the header of a file with a damaged frame is intact
      have hfront : (s.withEntries es₁).Ok seq time := by
        have hall : (s.withEntries (es₁ ++ ([e'] ++ es₂))).Ok seq time := by
          rw [← append_assoc, ← hes]
          exact hs
        exact hall.front hr
      rw [hdata, hfront.segmentDecode_image] at he
      cases he

/-- **Damage is never mistaken for an interrupted append.** Take the file of a segment whose frames are
complete and change any byte of it. The recovery scan then leaves every file as it is, in every
environment, and never succeeds; if no call fails and no deadline passes, it returns corruption. -/
theorem recoverSegment_refuses_damage (hs : s.Ok seq time) (hr : s.retired = false)
    (hm : RecordOf m s b) (hscan : b = true ∨ force = true) {i : ℕ} {x : UInt8}
    (hi : i < s.image.length) (hx : x ≠ s.image[i]) (hf : fs s.segPath = some f)
    (hdata : f.data = s.image.set i x) :
    Prog.wp (recoverSegment c m force deadline seq time) env
      (fun r fs' _ ↦ fs' = fs ∧ (∀ a, r ≠ .ok a) ∧
        (Undisturbed env deadline → ∃ e, r = .fail e ∧ e.code = .corrupt)) ⟨fs, n, mem⟩ := by
  have hdamage : Damaged s.image f.data := by
    refine ⟨s.image.take i, s.image[i], x, s.image.drop (i + 1), hx.symm, ?_, ?_⟩
    · rw [List.getElem_cons_drop, List.take_append_drop]
    · rw [hdata, List.set_eq_take_append_cons_drop, if_pos hi]
  refine (wp_recoverSegment_damaged hm hr hs hscan hf hdamage).mono ?_
  rintro (a | e | _) fs' mem' h
  · exact h.elim
  · exact ⟨h.1, by simp, fun hu ↦ ⟨e, rfl, h.2 hu⟩⟩
  · exact ⟨h.1, by simp, fun hu ↦ (h.2 hu).elim⟩

end Recover

/-- A segment of the first day with one frame of one row. -/
def hitSegment : LogSegment hits where
  id := 1
  day := 0
  first := 1
  entries := [⟨0, [hit 7 (by decide)]⟩]
  retired := false

theorem frameOk_hit : FrameOk (c := hits) [] 1 [hit 7 (by decide)] where
  sized := frameSizes_eq_some.1 (by decide +kernel)
  dictionary := by decide +kernel
  times := by decide +kernel
  last := by decide +kernel
  symbols x hx := by
    have hnone : symbolsAfter [] [hit 7 (by decide)] = [] := by decide +kernel
    rw [hnone] at hx
    cases hx
  nodup := by decide +kernel
  budget := by decide +kernel

theorem hitSegment_ok : hitSegment.Ok 0 0 where
  id := by decide
  day := by decide
  first := rfl
  first_lt := by decide
  groups := ⟨frameOk_hit, by decide +kernel, by decide +kernel, trivial⟩
  count := by decide
  retired := by decide
  budget := by decide +kernel

theorem recordOf_hitSegment : RecordOf (hitSegment.summary true) hitSegment true :=
  ⟨rfl, rfl, rfl, rfl, le_rfl, le_rfl, by simp⟩

/-- Recovery finds a changed byte in the length of the first frame. -/
theorem recoverSegment_refuses_damage_hit :
    Prog.wp (recoverSegment hits (hitSegment.summary true) false 1 0 0) (Env.still Path Dir)
      (fun r fs' _ ↦ fs' hitSegment.segPath = some ⟨hitSegment.image.set 136 200, 0⟩ ∧
        ∃ e, r = .fail e ∧ e.code = .corrupt)
      ⟨Prog.setFile hitSegment.segPath (some ⟨hitSegment.image.set 136 200, 0⟩) fun _ ↦ none, 0, ()⟩ := by
  obtain ⟨hlen, hbyte⟩ : ∃ h : 136 < hitSegment.image.length, (200 : UInt8) ≠ hitSegment.image[136] :=
    ⟨by decide +kernel, by decide +kernel⟩
  refine (recoverSegment_refuses_damage hitSegment_ok rfl recordOf_hitSegment (Or.inl rfl) hlen hbyte
    (Prog.setFile_self _ _ _) rfl).mono ?_
  rintro r fs' _ ⟨rfl, -, hcorrupt⟩
  exact ⟨Prog.setFile_self _ _ _, hcorrupt ⟨Env.calm_still Path Dir, fun _ ↦ Nat.one_pos⟩⟩

end WebAnalyticsDb
