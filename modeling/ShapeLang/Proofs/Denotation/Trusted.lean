import ShapeLang.Proofs.Denotation.Parts
import ShapeLang.Proofs.Frame.Trust

/-! # Forgetting frames that are not trusted

A frame that a host empties and uses again stands for an environment only while it is in use. Since
trusted frames refer to trusted frames only, all others can be forgotten between the requests of a
host.
-/

namespace ShapeLang.Denotation

variable {m : Machine} {view : View} {heap : Heap} {trust : Trust} {w x : Place} {id : FrameId}
  {env : Env} {d : Definition} {value : Value} {value' : Den}

/-- What is known of the frames of a set. -/
def View.within (view : View) (trust : Trust) [DecidablePred trust] : View where
  env id := if trust id then view.env id else none
  origin := view.origin
  live id slot := view.live id slot ∧ trust id

section Within

variable [DecidablePred trust]

theorem View.within_env : (view.within trust).env id = some env ↔
    trust id ∧ view.env id = some env := by
  simp only [View.within]
  split
  · simp_all
  · simp_all

theorem View.within_defines : (view.within trust).Defines id env d ↔
    trust id ∧ view.Defines id env d := by
  constructor
  · rintro ⟨known, ⟨live, trusted⟩, mem⟩
    exact ⟨trusted, (View.within_env.mp known).2, live, mem⟩
  · rintro ⟨trusted, known, live, mem⟩
    exact ⟨View.within_env.mpr ⟨trusted, known⟩, ⟨live, trusted⟩, mem⟩

theorem View.within_taken (taken : (view.within trust).Taken x) : view.Taken x := by
  cases taken with
  | frame known => exact .frame (View.within_env.mp known).2
  | closure known => exact .closure known
  | definition defines => exact .definition (View.within_defines.mp defines).2

theorem View.within_awake (awake : view.Awake heap x) : (view.within trust).Awake heap x :=
  fun id env d defines => awake id env d (View.within_defines.mp defines).2

variable (reflects : Reflects m [] view heap) (sound : heap.Sound trust)
include reflects sound

/-- Code in a trusted frame sees trusted frames only. -/
theorem Reflects.visible_within (known : view.env id = some env) (trusted : trust id)
    (depth slot : Nat) (sees : view.visible [] env w depth slot) :
    (view.within trust).visible [] env w depth slot := by
  obtain ⟨owner, at_, knownOwner, reached, sees⟩ := sees
  obtain ⟨other, found, knownOther⟩ := reflects.ancestor known reached
  obtain rfl := reflects.frames other owner at_ at_ knownOther knownOwner rfl
  have inside : trust other := sound.ancestor trusted found
  refine ⟨other, at_, View.within_env.mpr ⟨inside, knownOwner⟩, reached, sees.imp_right ?_⟩
  rintro ⟨d, same, defines, seen⟩
  exact ⟨d, same, View.within_defines.mpr ⟨inside, defines⟩, seen⟩

omit sound in
/-- A trusted value means the same if only trusted frames are known. -/
theorem Means.within (sound : heap.Sound trust) (means : Means [] view w value value')
    (trusted : heap.Trusts trust value) : Means [] (view.within trust) w value value' := by
  induction means with
  | bool value => exact .bool value
  | num value => exact .num value
  | text content => exact .text content
  | list items _ ih =>
    refine .list items fun item mem => ih item mem ?_
    cases trusted with | list parts => exact parts _ (List.mem_map_of_mem mem)
  | record fields _ ih =>
    refine .record fields fun field mem => ih field mem ?_
    cases trusted with | record parts =>
    exact parts _ (List.mem_map_of_mem (f := fun field => (field.1, field.2.1)) mem)
  | «module» known seen named =>
    cases trusted with | «module» holds =>
    refine .module (View.within_env.mpr ⟨holds.1, known⟩) seen fun field mem => ?_
    obtain ⟨d, same, defines, place⟩ := named field mem
    exact ⟨d, same, View.within_defines.mpr ⟨holds.1, defines⟩, place⟩
  | closure made known seen around layout inner =>
    cases trusted with | closure holds =>
    refine .closure made (View.within_env.mpr ⟨holds.1, known⟩) seen around layout ?_
    exact inner.mono (Visibility.enter_mono (reflects.visible_within sound known holds.1))
  | builtin function => exact .builtin function

/-- Frames that are not trusted can be forgotten. -/
theorem Reflects.within : Reflects m [] (view.within trust) heap := by
  constructor
  case frames =>
    intro id other env env' known known'
    exact reflects.frames id other env env' (View.within_env.mp known).2
      (View.within_env.mp known').2
  case origins => exact reflects.origins
  case places =>
    intro id id' env env' d d' defines defines'
    exact reflects.places id id' env env' d d' (View.within_defines.mp defines).2
      (View.within_defines.mp defines').2
  case closures => exact reflects.closures
  case stands =>
    intro id env known
    obtain ⟨trusted, known⟩ := View.within_env.mp known
    obtain ⟨laid, ⟨frame, found, depth, room, parents⟩, around, args⟩ := reflects.stands id env known
    refine ⟨laid, ⟨frame, found, depth, room, fun outer atParent => ?_⟩, around, ?_⟩
    · obtain ⟨parent, same, known'⟩ := parents outer atParent
      have inside := sound.parent id frame parent trusted found same
      exact ⟨parent, same, View.within_env.mpr ⟨inside, known'⟩⟩
    · intro slot value' there
      obtain ⟨value, holds, means⟩ := args slot value' there
      obtain ⟨frame', found', holds'⟩ := Heap.slot?_eq_some_iff.mp holds
      have fitting := sound.fitting id frame' slot _ trusted found' holds'
      exact ⟨value, holds, means.within reflects sound fitting⟩
  case waits =>
    intro id env d defines
    obtain ⟨trusted, defines⟩ := View.within_defines.mp defines
    obtain ⟨sees, content, holds, filling⟩ := reflects.waits id env d defines
    refine ⟨sees.mono (reflects.visible_within sound defines.known trusted), content, holds, ?_⟩
    cases filling with
    | asleep => exact .asleep
    | busy mem => cases mem
    | done settles means =>
      obtain ⟨frame, found, holds'⟩ := Heap.slot?_eq_some_iff.mp holds
      have fitting := sound.fitting id frame d.slot _ trusted found holds'
      exact .done settles (means.within reflects sound fitting)
  case awake => exact fun x taken => View.within_awake (reflects.awake x (View.within_taken taken))
  case owned =>
    rintro id slot ⟨live, trusted⟩
    obtain ⟨env, d, same, defines⟩ := reflects.owned id slot live
    exact ⟨env, d, same, View.within_defines.mpr ⟨trusted, defines⟩⟩
  case underWay => exact fun _ mem => by cases mem

end Within

end ShapeLang.Denotation
