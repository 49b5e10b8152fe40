import Mathlib.Data.List.Nodup
import Mathlib.Data.List.Flatten
import Mathlib.Data.List.Perm.Subperm
import ShapeLang.Frame.Liveness
import ShapeLang.Proofs.Frame.Heap

/-! # Frames that something holds on to are live

Releasing frames takes away the references that they held, one by one, and a frame is released
when its count has come down to zero. A count is at all times the number of references that were not
taken away. In the end a frame is therefore released if and only if no root refers to it, and none of
the frames that are not released. It follows that the roots stay live, and what live frames refer to.
-/

namespace ShapeLang

namespace Heap

variable {heap : Heap} {roots : List FrameId} {id other : FrameId}

/-- Something still refers to the frame once everything unused is released. -/
def Live (heap : Heap) (roots : List FrameId) (id : FrameId) : Prop :=
  (heap.liveCounts roots)[id]?.getD 0 ≠ 0

/-- All references that frames hold. -/
def allReferences (heap : Heap) : List FrameId :=
  (List.range heap.frames.size).flatMap heap.references

theorem getElem?_count (ids : List FrameId) (counts : ReferenceCounts) :
    (ids.foldl (fun counts id => counts.modify id (· + 1)) counts)[id]? =
      counts[id]?.map (· + ids.count id) := by
  induction ids generalizing counts with
  | nil => simp
  | cons first ids ih =>
    rw [List.foldl_cons, ih, Array.getElem?_modify, List.count_cons]
    by_cases same : first = id
    · simp only [same, ↓reduceIte, Option.map_map, BEq.rfl]
      congr 1
      funext n
      simp only [Function.comp_apply]
      omega
    · simp [same]

theorem getElem?_countFrames (frames : List Frame) (counts : ReferenceCounts) :
    (frames.foldl (fun counts frame =>
      frame.references.foldl (fun counts id => counts.modify id (· + 1)) counts) counts)[id]? =
      counts[id]?.map (· + (frames.flatMap Frame.references).count id) := by
  induction frames generalizing counts with
  | nil => simp
  | cons frame frames ih =>
    rw [List.foldl_cons, ih, getElem?_count, Option.map_map, List.flatMap_cons, List.count_append]
    congr 1
    funext n
    simp only [Function.comp_apply]
    omega

theorem allReferences_eq (heap : Heap) :
    heap.allReferences = heap.frames.toList.flatMap Frame.references := by
  have listed : (List.range heap.frames.size).map heap.references =
      heap.frames.toList.map Frame.references := by
    apply List.ext_getElem
    · simp
    · intro id inside inside'
      have known : id < heap.frames.size := by simpa using inside'
      simp [references, frame?, known]
  rw [allReferences, List.flatMap_def, listed, ← List.flatMap_def]

/-- At first a frame is counted once for each root and each reference to it. -/
theorem getElem?_referenceCounts (heap : Heap) (roots : List FrameId) (id : FrameId) :
    (heap.referenceCounts roots)[id]? =
      if id < heap.frames.size then some ((roots ++ heap.allReferences).count id) else none := by
  unfold referenceCounts
  dsimp only
  rw [← Array.foldl_toList, getElem?_countFrames, getElem?_count, allReferences_eq,
    List.count_append, Array.getElem?_replicate]
  split <;> simp

/-- A frame that nothing keeps: no root refers to it, and of the frames that do each one is released
itself. Frames that refer to each other in a circle are not. -/
inductive Released (heap : Heap) (roots : List FrameId) : FrameId → Prop
  | release {id : FrameId} (known : id < heap.frames.size) (unrooted : id ∉ roots)
    (referrers : ∀ other, id ∈ heap.references other → Released heap roots other) :
    Released heap roots id

theorem lt_size_of_mem_references (mem : id ∈ heap.references other) :
    other < heap.frames.size := by
  by_contra outside
  have missing := frame?_eq_none_iff.mpr (Nat.le_of_not_lt outside)
  simp [references, missing] at mem

theorem mem_allReferences (mem : id ∈ heap.references other) : id ∈ heap.allReferences :=
  List.mem_flatMap.mpr ⟨other, List.mem_range.mpr (lt_size_of_mem_references mem), mem⟩

/-- What different frames hold is counted once each. -/
theorem count_flatMap_le {kept : List FrameId} (nodup : kept.Nodup)
    (inside : ∀ id ∈ kept, id < heap.frames.size) (target : FrameId) :
    (kept.flatMap heap.references).count target ≤ heap.allReferences.count target := by
  have part : List.Subperm kept (List.range heap.frames.size) :=
    nodup.subperm fun id mem => List.mem_range.mpr (inside id mem)
  obtain ⟨sorted, perm, sublist⟩ := part
  rw [← (perm.flatMap_right heap.references).count_eq]
  exact (sublist.flatMap heap.references).count_le target

/-- If all frames that refer to one are among some frames, these hold all references to it. -/
theorem allReferences_count_le {kept : List FrameId} {target : FrameId}
    (referrers : ∀ other, target ∈ heap.references other → other ∈ kept) :
    heap.allReferences.count target ≤ (kept.flatMap heap.references).count target := by
  have holders : heap.allReferences.count target =
      (((List.range heap.frames.size).filter (· ∈ kept)).flatMap heap.references).count target := by
    unfold allReferences
    generalize List.range heap.frames.size = ids
    induction ids with
    | nil => rfl
    | cons other ids ih =>
      rw [List.flatMap_cons, List.count_append, ih]
      by_cases mem : other ∈ kept
      · rw [List.filter_cons_of_pos (by simpa using mem), List.flatMap_cons, List.count_append]
      · rw [List.filter_cons_of_neg (by simpa using mem),
          List.count_eq_zero_of_not_mem fun refers => mem (referrers other refers), Nat.zero_add]
  have part : List.Subperm ((List.range heap.frames.size).filter (· ∈ kept)) kept :=
    (List.nodup_range.filter _).subperm fun id mem => by simpa using (List.mem_filter.mp mem).2
  obtain ⟨sorted, perm, sublist⟩ := part
  rw [holders, ← (perm.flatMap_right heap.references).count_eq]
  exact (sublist.flatMap heap.references).count_le target

/-- Some frames are released and some are about to be: those without any reference left. The
references in `gone` were taken away, and no others. -/
structure Releasing (heap : Heap) (roots released unused gone : List FrameId)
    (counts : ReferenceCounts) : Prop where
  nodup : (released ++ unused).Nodup
  zero : ∀ id, id ∈ released ++ unused ↔ counts[id]? = some 0
  known : ∀ id n, counts[id]? = some n → id < heap.frames.size
  counted : ∀ id, id < heap.frames.size → ∃ n, counts[id]? = some n ∧
    (roots ++ heap.allReferences).count id = n + gone.count id
  sound : ∀ id ∈ released ++ unused, heap.Released roots id

namespace Releasing

variable {released unused gone : List FrameId} {counts : ReferenceCounts}

theorem inside (releasing : Releasing heap roots released unused gone counts)
    (mem : id ∈ released ++ unused) : id < heap.frames.size :=
  releasing.known id 0 ((releasing.zero id).mp mem)

/-- A frame to which no reference is left that was not held by released frames. -/
theorem released_of_count (releasing : Releasing heap roots released unused gone counts)
    {target : FrameId} (known : target < heap.frames.size)
    (all : (roots ++ heap.allReferences).count target ≤
      (released.flatMap heap.references).count target) : heap.Released roots target := by
  have nodup := (List.nodup_append.mp releasing.nodup).1
  have inside : ∀ id ∈ released, id < heap.frames.size := fun id mem =>
    releasing.inside (List.mem_append_left _ mem)
  have bound := count_flatMap_le nodup inside target
  rw [List.count_append] at all
  refine .release known (fun mem => ?_) fun other refers => ?_
  · have := List.count_pos_iff.mpr mem
    omega
  · apply releasing.sound other
    by_contra new
    have fresh : other ∉ released := fun mem => new (List.mem_append_left _ mem)
    have more := count_flatMap_le (List.nodup_cons.mpr ⟨fresh, nodup⟩)
      (List.forall_mem_cons.mpr ⟨lt_size_of_mem_references refers, inside⟩) target
    rw [List.flatMap_cons, List.count_append] at more
    have := List.count_pos_iff.mpr refers
    omega

theorem drop (releasing : Releasing heap roots released unused gone counts) {target : FrameId}
    (held : (target :: gone).count target ≤ (released.flatMap heap.references).count target)
    (left : gone.count target < (roots ++ heap.allReferences).count target) :
    Releasing heap roots released (Heap.drop (counts, unused) target).2 (target :: gone)
      (Heap.drop (counts, unused) target).1 := by
  have judged (known : target < heap.frames.size)
      (all : (roots ++ heap.allReferences).count target ≤
        (released.flatMap heap.references).count target) : heap.Released roots target :=
    releasing.released_of_count known all
  obtain ⟨nodup, zero, known, counted, sound⟩ := releasing
  have once : (target :: gone).count target = gone.count target + 1 := List.count_cons_self
  cases atTarget : counts[target]? with
  | none =>
    simp only [Heap.drop, atTarget]
    refine ⟨nodup, zero, known, fun id inside => ?_, sound⟩
    obtain ⟨n, here, enough⟩ := counted id inside
    have different : target ≠ id := by
      rintro rfl
      rw [atTarget] at here
      cases here
    exact ⟨n, here, by rw [List.count_cons_of_ne different, enough]⟩
  | some n =>
    have inside := known target n atTarget
    have bound : target < counts.size := (Array.getElem?_eq_some_iff.mp atTarget).1
    have total : (roots ++ heap.allReferences).count target = n + gone.count target := by
      obtain ⟨m, here, enough⟩ := counted target inside
      obtain rfl : n = m := Option.some.inj (atTarget.symm.trans here)
      exact enough
    -- What the count becomes, in both cases below.
    have lowered : ∀ id, id < heap.frames.size → ∃ m,
        (counts.set! target (n - 1))[id]? = some m ∧
          (roots ++ heap.allReferences).count id = m + (target :: gone).count id := by
      intro id inside'
      by_cases same : target = id
      · subst same
        exact ⟨n - 1, by simp [bound], by omega⟩
      · obtain ⟨m, here, enough⟩ := counted id inside'
        exact ⟨m, by simp [same, here], by rw [List.count_cons_of_ne same, enough]⟩
    have known' : ∀ id m, (counts.set! target (n - 1))[id]? = some m → id < heap.frames.size := by
      intro id m here
      by_cases same : target = id
      · exact same ▸ inside
      · exact known id m (by simpa [same] using here)
    have fresh : target ∉ released ++ unused := by
      intro mem
      have none_left := Option.some.inj (atTarget.symm.trans ((zero target).mp mem))
      omega
    by_cases last : n = 1
    · subst last
      simp only [Heap.drop, atTarget]
      refine ⟨?_, fun id => ?_, known', lowered, fun id mem => ?_⟩
      · exact List.nodup_middle.mpr (List.nodup_cons.mpr ⟨fresh, nodup⟩)
      · by_cases same : target = id
        · subst same
          simp [bound]
        · simpa [same, Ne.symm same, or_left_comm] using zero id
      · by_cases same : target = id
        · subst same
          exact judged inside (by omega)
        · exact sound id (by simpa [Ne.symm same, or_left_comm] using mem)
    · have dropped : Heap.drop (counts, unused) target =
          (counts.set! target (n - 1), unused) := by
        simp only [Heap.drop, atTarget]
      rw [dropped]
      refine ⟨nodup, fun id => ?_, known', lowered, sound⟩
      by_cases same : target = id
      · subst same
        simp only [fresh, false_iff]
        simp only [Array.set!_eq_setIfInBounds, Array.getElem?_setIfInBounds_self, bound,
          ↓reduceIte, Option.some.injEq]
        omega
      · simpa [same] using zero id

theorem dropAll (releasing : Releasing heap roots released unused gone counts)
    (targets : List FrameId)
    (held : ∀ id, (targets ++ gone).count id ≤ (released.flatMap heap.references).count id)
    (left : ∀ id, (targets ++ gone).count id ≤ (roots ++ heap.allReferences).count id) :
    Releasing heap roots released (targets.foldl Heap.drop (counts, unused)).2
      (targets.reverse ++ gone) (targets.foldl Heap.drop (counts, unused)).1 := by
  induction targets generalizing unused gone counts with
  | nil => exact releasing
  | cons target targets ih =>
    have moved (id : FrameId) : (targets ++ target :: gone).count id =
        (target :: targets ++ gone).count id := List.perm_middle.count_eq id
    have first : (target :: gone).count target ≤ (target :: targets ++ gone).count target := by
      rw [← moved, List.count_append]
      exact Nat.le_add_left ..
    rw [List.foldl_cons, List.reverse_cons, List.append_assoc, List.singleton_append]
    refine ih (releasing.drop (Nat.le_trans first (held target)) ?_) (fun id => ?_) fun id => ?_
    · rw [List.count_cons_self] at first
      exact Nat.lt_of_lt_of_le first (left target)
    · exact moved id ▸ held id
    · exact moved id ▸ left id

/-- A frame that is about to be released is released now. -/
theorem release (releasing : Releasing heap roots released (id :: unused) gone counts) :
    Releasing heap roots (id :: released) unused gone counts := by
  obtain ⟨nodup, zero, known, counted, sound⟩ := releasing
  have same (other : FrameId) :
      other ∈ id :: (released ++ unused) ↔ other ∈ released ++ id :: unused := by
    simp [or_left_comm]
  exact ⟨List.nodup_middle.mp nodup, fun other => (same other).trans (zero other), known, counted,
    fun other mem => sound other ((same other).mp mem)⟩

/-- Only how often each reference was taken away matters. -/
theorem congr {gone' : List FrameId}
    (releasing : Releasing heap roots released unused gone counts)
    (same : ∀ id, gone.count id = gone'.count id) :
    Releasing heap roots released unused gone' counts :=
  ⟨releasing.nodup, releasing.zero, releasing.known, fun id inside => same id ▸
    releasing.counted id inside, releasing.sound⟩

theorem length_le (releasing : Releasing heap roots released unused gone counts) :
    released.length ≤ heap.frames.size := by
  have part : List.Subperm released (List.range heap.frames.size) :=
    (List.nodup_append.mp releasing.nodup).1.subperm fun id mem =>
      List.mem_range.mpr (releasing.inside (List.mem_append_left _ mem))
  simpa using part.length_le

end Releasing

/-- In the end the references are gone that the released frames held, and no others, and no frame is
left to release. -/
theorem releasing_release (fuel : Nat) (released unused : List FrameId) {counts : ReferenceCounts}
    (releasing : Releasing heap roots released unused (released.flatMap heap.references) counts)
    (enough : heap.frames.size < fuel + released.length) :
    ∃ released', Releasing heap roots released' [] (released'.flatMap heap.references)
      (heap.release fuel unused counts) := by
  induction fuel generalizing released unused counts with
  | zero =>
    have := releasing.length_le
    omega
  | succ fuel ih =>
    cases unused with
    | nil => exact ⟨released, releasing⟩
    | cons id unused =>
      have now := releasing.release
      have held (other : FrameId) : (heap.references id ++ released.flatMap heap.references).count
          other ≤ ((id :: released).flatMap heap.references).count other :=
        Nat.le_of_eq (by rw [List.flatMap_cons])
      have left (other : FrameId) : (heap.references id ++ released.flatMap heap.references).count
          other ≤ (roots ++ heap.allReferences).count other := by
        have split : (roots ++ heap.allReferences).count other =
            roots.count other + heap.allReferences.count other := List.count_append
        rw [split]
        refine Nat.le_trans (held other) (Nat.le_trans (count_flatMap_le
          (List.nodup_append.mp now.nodup).1 (fun id mem =>
            now.inside (List.mem_append_left _ mem)) other) (Nat.le_add_left ..))
      have next := now.dropAll (heap.references id) held left
      apply ih (id :: released) _ (next.congr fun other => ?_)
      · rw [List.length_cons]
        omega
      · rw [List.flatMap_cons, List.count_append, List.count_append, List.count_reverse]

theorem exists_releasing (heap : Heap) (roots : List FrameId) :
    ∃ released, Releasing heap roots released [] (released.flatMap heap.references)
      (heap.liveCounts roots) := by
  have total {id : FrameId} (zero : (heap.referenceCounts roots)[id]? = some 0) :
      id < heap.frames.size ∧ (roots ++ heap.allReferences).count id = 0 := by
    rw [getElem?_referenceCounts] at zero
    split at zero
    · exact ⟨‹_›, Option.some.inj zero⟩
    · cases zero
  have waiting (id : FrameId) : id ∈ (List.range heap.frames.size).filter
      (fun id => (heap.referenceCounts roots)[id]? == some 0) ↔
        (heap.referenceCounts roots)[id]? = some 0 := by
    rw [List.mem_filter, List.mem_range, beq_iff_eq]
    exact ⟨fun both => both.2, fun zero => ⟨(total zero).1, zero⟩⟩
  apply releasing_release _ []
  · refine ⟨List.nodup_range.filter _, fun id => waiting id, fun id n here => ?_,
      fun id inside => ?_, fun id mem => ?_⟩
    · rw [getElem?_referenceCounts] at here
      split at here
      · assumption
      · cases here
    · exact ⟨_, (getElem?_referenceCounts ..).trans (if_pos inside), rfl⟩
    · obtain ⟨known, none_left⟩ := total ((waiting id).mp mem)
      have nowhere := List.count_eq_zero.mp none_left
      exact .release known (fun root => nowhere (List.mem_append_left _ root)) fun other refers =>
        (nowhere (List.mem_append_right _ (mem_allReferences refers))).elim
  · simp

/-- The live frames are those that are not released. -/
theorem live_iff : heap.Live roots id ↔ id < heap.frames.size ∧ ¬ heap.Released roots id := by
  obtain ⟨released, releasing⟩ := heap.exists_releasing roots
  have zero (id : FrameId) : id ∈ released ↔ (heap.liveCounts roots)[id]? = some 0 := by
    simpa using releasing.zero id
  constructor
  · intro live
    have known : id < heap.frames.size := by
      by_contra outside
      apply live
      cases here : (heap.liveCounts roots)[id]? with
      | none => rfl
      | some n => exact (outside (releasing.known id n here)).elim
    refine ⟨known, fun gone => live ?_⟩
    rw [← Option.getD_some (a := 0) (b := 0)]
    congr 1
    clear live known
    -- All references to a released frame are held by frames that are released.
    induction gone with
    | @release id known unrooted referrers ih =>
      obtain ⟨n, here, counted⟩ := releasing.counted id known
      have all := allReferences_count_le fun other refers => (zero other).mpr (ih other refers)
      rw [List.count_append, List.count_eq_zero.mpr unrooted] at counted
      rw [here, show n = 0 by omega]
  · rintro ⟨known, kept⟩ dead
    obtain ⟨n, here, -⟩ := releasing.counted id known
    rw [here, Option.getD_some] at dead
    subst dead
    exact kept (releasing.sound id (by simpa using (zero id).mpr here))

/-- A root is live. -/
theorem live_of_mem (known : id < heap.frames.size) (mem : id ∈ roots) : heap.Live roots id := by
  refine live_iff.mpr ⟨known, fun released => ?_⟩
  cases released with
  | release _ unrooted => exact unrooted mem

/-- What a live frame refers to is live. -/
theorem Live.reference (live : heap.Live roots id) (known : other < heap.frames.size)
    (mem : other ∈ heap.references id) : heap.Live roots other := by
  refine live_iff.mpr ⟨known, fun released => ?_⟩
  cases released with
  | release _ _ referrers => exact (live_iff.mp live).2 (referrers id mem)

/-- A further root changes nothing if it is live anyway. -/
theorem live_cons (live : heap.Live roots other) :
    heap.Live (other :: roots) id ↔ heap.Live roots id := by
  have kept := (live_iff.mp live).2
  have same : heap.Released (other :: roots) id ↔ heap.Released roots id := by
    constructor
    · intro released
      induction released with
      | release known unrooted _ ih =>
        exact .release known (fun mem => unrooted (List.mem_cons_of_mem other mem)) ih
    · intro released
      induction released with
      | @release id known unrooted referrers ih =>
        refine .release known (fun mem => ?_) ih
        rcases List.mem_cons.mp mem with rfl | mem
        · exact kept (.release known unrooted referrers)
        · exact unrooted mem
  rw [live_iff, live_iff, same]

section Congr

variable {later : Heap} {roots' : List FrameId} {within : FrameId → Prop}

private theorem released_of_alike
    (size : ∀ id, within id → id < heap.frames.size → id < later.frames.size)
    (rooted : ∀ id, within id → id ∈ roots' → id ∈ roots)
    (referrers : ∀ id, within id → ∀ holder, id ∈ later.references holder →
      within holder ∧ id ∈ heap.references holder)
    (inside : within id) (released : heap.Released roots id) : later.Released roots' id := by
  induction released with
  | @release id known unrooted _ ih =>
    refine .release (size id inside known) (fun mem => unrooted (rooted id inside mem)) ?_
    intro holder mem
    obtain ⟨inside', mem'⟩ := referrers id inside holder mem
    exact ih holder mem' inside'

/-- Which frames of a set are live does not depend on other frames, if none of these refers to one
of the set. -/
theorem live_congr
    (size : ∀ id, within id → (id < heap.frames.size ↔ id < later.frames.size))
    (rooted : ∀ id, within id → (id ∈ roots ↔ id ∈ roots'))
    (referrers : ∀ id, within id → ∀ holder,
      (id ∈ heap.references holder ↔ id ∈ later.references holder))
    (closed : ∀ id, within id → ∀ holder, id ∈ heap.references holder → within holder)
    (inside : within id) : heap.Live roots id ↔ later.Live roots' id := by
  rw [live_iff, live_iff, size id inside]
  refine and_congr_right fun _ => not_congr ⟨?_, ?_⟩
  · refine released_of_alike (fun id inside => (size id inside).mp)
      (fun id inside => (rooted id inside).mpr) (fun id inside holder mem => ?_) inside
    have mem := (referrers id inside holder).mpr mem
    exact ⟨closed id inside holder mem, mem⟩
  · refine released_of_alike (fun id inside => (size id inside).mpr)
      (fun id inside => (rooted id inside).mp) (fun id inside holder mem => ?_) inside
    exact ⟨closed id inside holder mem, (referrers id inside holder).mp mem⟩

end Congr

end Heap

end ShapeLang
