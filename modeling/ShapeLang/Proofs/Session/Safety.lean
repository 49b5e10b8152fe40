import ShapeLang.Proofs.Session.Exporting
import ShapeLang.Proofs.Session.Requests

/-! # Sessions meet no defect

Between requests everything that a host has in its hands belongs to a trusted set of frames. Each
request leaves it so, whether it is answered or fails, and so no session ever meets a defect.
-/

namespace ShapeLang

namespace Session

/-- Everything that the host has refers to trusted frames. -/
structure Secure (s : Session) (heap : Heap) (trust : Trust) : Prop where
  sound : heap.Sound trust
  programs : ∀ p ∈ s.programs, p.Settled heap trust
  values : ∀ value ∈ s.values, heap.Trusts trust value
  recognizers : ∀ r ∈ s.recognizers, r.Settled heap trust

namespace Secure

variable {s : Session} {heap later : Heap} {trust wider : Trust}

theorem advance (secure : s.Secure heap trust) (advance : Advance heap trust later wider) :
    s.Secure later wider :=
  ⟨advance.sound, fun p mem =>
    ⟨advance.included _ (secure.programs p mem).1,
      advance.fits (secure.programs p mem).1 (secure.programs p mem).2⟩,
    fun value mem => advance.trusts (secure.values value mem),
    fun r mem shape same role => advance.serves (secure.recognizers r mem shape same role)⟩

theorem addValue (secure : s.Secure heap trust) {value : Value}
    (trusted : heap.Trusts trust value) : (s.addValue value).Secure heap trust := by
  refine ⟨secure.sound, secure.programs, fun other mem => ?_, secure.recognizers⟩
  rcases List.mem_append.mp mem with mem | mem
  · exact secure.values other mem
  · exact List.mem_singleton.mp mem ▸ trusted

theorem addProgram (secure : s.Secure heap trust) {p : Program} (settled : p.Settled heap trust) :
    (s.addProgram p).Secure heap trust := by
  refine ⟨secure.sound, fun other mem => ?_, secure.values, secure.recognizers⟩
  rcases List.mem_append.mp mem with mem | mem
  · exact secure.programs other mem
  · exact List.mem_singleton.mp mem ▸ settled

theorem addRecognizer (secure : s.Secure heap trust) {r : Recognizer}
    (settled : r.Settled heap trust) : (s.addRecognizer r).Secure heap trust := by
  refine ⟨secure.sound, secure.programs, secure.values, fun other mem => ?_⟩
  rcases List.mem_append.mp mem with mem | mem
  · exact secure.recognizers other mem
  · exact List.mem_singleton.mp mem ▸ settled

theorem setRecognizer (secure : s.Secure heap trust) (i : Nat) {r : Recognizer}
    (settled : r.Settled heap trust) : (s.setRecognizer i r).Secure heap trust := by
  refine ⟨secure.sound, secure.programs, secure.values, fun other mem => ?_⟩
  rcases List.mem_or_eq_of_mem_set mem with mem | rfl
  · exact secure.recognizers other mem
  · exact settled

/-- The values that the host names. -/
theorem named (secure : s.Secure heap trust) (args : List Nat) :
    ∀ arg ∈ args.filterMap (s.values[·]?), heap.Trusts trust arg := by
  intro arg mem
  obtain ⟨i, -, found⟩ := List.mem_filterMap.mp mem
  exact secure.values arg (List.mem_of_getElem? found)

end Secure

variable {s : Session} {heap : Heap} {trust : Trust} {held : List Held}

/-- A request is answered, or fails in good order. -/
abbrev Answered (action : Eval Session) (heap : Heap) (trust : Trust) : Prop :=
  Careful action heap trust Secure

theorem withValue_answered (secure : s.Secure heap trust) (i : Nat) {next : Value → Eval Session}
    (answered : ∀ value, heap.Trusts trust value → Answered (next value) heap trust) :
    Answered (s.withValue i next) heap trust := by
  unfold withValue
  cases found : s.values[i]? with
  | some value => exact answered value (secure.values value (List.mem_of_getElem? found))
  | none => exact .pure secure.sound secure

theorem withProgram_answered (secure : s.Secure heap trust) (i : Nat)
    {next : Program → Eval Session}
    (answered : ∀ p, p.Settled heap trust → Answered (next p) heap trust) :
    Answered (s.withProgram i next) heap trust := by
  unfold withProgram
  cases found : s.programs[i]? with
  | some p => exact answered p (secure.programs p (List.mem_of_getElem? found))
  | none => exact .pure secure.sound secure

theorem withRecognizer_answered (secure : s.Secure heap trust) (i : Nat)
    {next : Recognizer → Eval Session}
    (answered : ∀ r, r.Settled heap trust → Answered (next r) heap trust) :
    Answered (s.withRecognizer i next) heap trust := by
  unfold withRecognizer
  cases found : s.recognizers[i]? with
  | some r => exact answered r (secure.recognizers r (List.mem_of_getElem? found))
  | none => exact .pure secure.sound secure

theorem caller_careful (sound : heap.Sound trust) (named : Option FrameId) :
    Careful (caller named) heap trust fun found later _ =>
      heap = later ∧ ∀ id, found = some id → ∃ frame, heap.frame? id = some frame := by
  unfold caller
  refine Ends.through (fun current after => heap = current ∧ heap = after)
    (Ends.get ⟨rfl, rfl⟩) ?_
  rintro _ _ ⟨rfl, rfl⟩
  refine .pure ⟨trust, .refl sound, rfl, fun id same => ?_⟩
  exact Option.isSome_iff_exists.mp (Option.filter_eq_some_iff.mp same).2

theorem callingFrame_careful (sound : heap.Sound trust) (named : Option FrameId) :
    Careful (callingFrame named) heap trust fun id later _ =>
      ∃ frame, later.frame? id = some frame := by
  unfold callingFrame
  refine (caller_careful sound named).bind ?_
  rintro found _ wider advance ⟨rfl, known⟩
  cases found with
  | some id => exact .pure advance.sound (known id rfl)
  | none =>
    refine Ends.through (fun callDepth after => heap = after) rfl ?_
    rintro callDepth _ rfl
    exact Ends.alloc ⟨wider, .of_grows (.alloc ..) (fun _ known => known)
      (fun _ known => .inl known) advance.sound.alloc, _, Heap.frame?_alloc_self ..⟩

theorem answer_careful (m : Machine) (fuel : Nat) (secure : s.Secure heap trust)
    (request : Request) : Answered (s.answer m fuel held request) heap trust := by
  have safe := Eval.upTo_safe m fuel
  -- A value that is the answer.
  have gained {action : Eval Value}
      (careful : Careful action heap trust fun value later wider => later.Trusts wider value) :
      Answered (s.addValue <$> action) heap trust :=
    .map (careful.mono fun value later wider advance trusted =>
      (secure.advance advance).addValue trusted)
  cases request with
  | compile names named source =>
    refine (caller_careful secure.sound named).bind ?_
    rintro found _ wider advance ⟨rfl, known⟩
    refine (Program.compile_careful advance.sound known).bind
      fun result later widest advance' settled => ?_
    have secure' := secure.advance (advance.trans advance')
    cases result with
    | ok p => exact .pure secure'.sound (secure'.addProgram (settled p rfl))
    | error errors => exact .pure secure'.sound secure'
  | eval i =>
    exact withProgram_answered secure i fun p settled =>
      gained (settled.eval_careful secure.sound)
  | constant value =>
    exact .pure secure.sound (secure.addValue (Constant.toValue_plain value).holds)
  | list items => exact .pure secure.sound (secure.addValue (.list (secure.named items)))
  | record fields =>
    refine .pure secure.sound (secure.addValue (.record fun field mem => ?_))
    obtain ⟨⟨name, i⟩, -, given⟩ := List.mem_filterMap.mp mem
    obtain ⟨value, found, rfl⟩ := Option.map_eq_some_iff.mp given
    exact secure.values value (List.mem_of_getElem? found)
  | item i index =>
    refine withValue_answered secure i fun value trusted => ?_
    cases trusted with
    | @list items frames parts =>
      refine .pure secure.sound ?_
      cases found : items[index]? with
      | some item => exact secure.addValue (parts item (List.mem_of_getElem? found))
      | none => exact secure
    | _ => exact .pure secure.sound secure
  | field i name context =>
    refine withValue_answered secure i fun value trusted => .map ?_
    refine (field?_careful safe secure.sound trusted).mono
      fun found later wider advance known => ?_
    cases found with
    | some part => exact (secure.advance advance).addValue (known part rfl)
    | none => exact secure.advance advance
  | call i args named site =>
    refine withValue_answered secure i fun function trusted => ?_
    refine (callingFrame_careful secure.sound named).bind fun frame later wider advance known => ?_
    have secure' := secure.advance advance
    exact .map ((call_careful safe advance.sound (advance.trusts trusted) (secure'.named args)
      known).mono fun value last widest advance' trusted' =>
        (secure'.advance advance').addValue trusted')
  | recognizer nub => exact .pure secure.sound (secure.addRecognizer (Recognizer.Settled.new nub))
  | recognize i j =>
    refine withRecognizer_answered secure i fun r settled =>
      withValue_answered secure j fun value trusted => .map ?_
    exact (recognize_careful safe secure.sound trusted settled).mono
      fun found later wider advance settled' => (secure.advance advance).setRecognizer i settled'
  | require i j =>
    refine withRecognizer_answered secure i fun r settled =>
      withValue_answered secure j fun value trusted => .map ?_
    exact (require_careful safe secure.sound trusted settled).mono
      fun found later wider advance settled' => (secure.advance advance).setRecognizer i settled'
  | dist i p t =>
    exact withRecognizer_answered secure i fun r settled => .map
      ((sample_careful safe secure.sound settled).mono
        fun _ _ _ advance _ => secure.advance advance)
  | colour i p t =>
    exact withRecognizer_answered secure i fun r settled => .map
      ((sample_careful safe secure.sound settled).mono
        fun _ _ _ advance _ => secure.advance advance)
  | inline i role param compiler =>
    refine withRecognizer_answered secure i fun r settled => ?_
    refine (runWith_careful safe secure.sound settled).bind ?_
    rintro ⟨result, compiler'⟩ later wider advance harmless
    cases result with
    | ok term => exact .pure advance.sound (secure.advance advance)
    | error fault => exact Ends.throw ⟨harmless fault rfl, wider, .refl advance.sound⟩
  | shader i =>
    refine withRecognizer_answered secure i fun r settled => ?_
    refine (writeShader_careful safe secure.sound settled _).bind ?_
    rintro ⟨text, fault⟩ later wider advance harmless
    cases fault with
    | none => exact .pure advance.sound (secure.advance advance)
    | some fault => exact Ends.throw ⟨harmless fault rfl, wider, .refl advance.sound⟩

/-- What one turn preserves. -/
theorem turn_secure (m : Machine) (t : Turn) (secure : s.Secure heap trust) :
    (∀ fault ∈ (turn m (s, heap) t).1, fault.Harmless) ∧
      ∃ wider, Advance heap trust (turn m (s, heap) t).2.2 wider ∧
        (turn m (s, heap) t).2.1.Secure (turn m (s, heap) t).2.2 wider := by
  have answered : Answered (s.answer m t.fuel t.held t.request) heap trust :=
    answer_careful m t.fuel secure t.request
  unfold turn
  rcases ran : s.answer m t.fuel t.held t.request heap with ⟨fault | after, later⟩
  · obtain ⟨harmless, wider, advance⟩ := answered.failed ran
    simp only
    exact ⟨by simpa using harmless, wider, advance, secure.advance advance⟩
  · obtain ⟨wider, advance, secure'⟩ := answered.returned ran
    simp only
    exact ⟨by simp, wider, advance, secure'⟩

theorem play_secure (m : Machine) (turns : List Turn) (secure : s.Secure heap trust) :
    ∃ wider, Advance heap trust (play m (s, heap) turns).2 wider ∧
      (play m (s, heap) turns).1.Secure (play m (s, heap) turns).2 wider := by
  induction turns generalizing s heap trust with
  | nil => exact ⟨trust, .refl secure.sound, secure⟩
  | cons t turns ih =>
    obtain ⟨-, between, advance, secure'⟩ := turn_secure m t secure
    obtain ⟨wider, advance', secure''⟩ := ih secure'
    exact ⟨wider, advance.trans advance', secure''⟩

theorem faults_harmless (m : Machine) (turns : List Turn) (secure : s.Secure heap trust) :
    ∀ fault ∈ faults m (s, heap) turns, fault.Harmless := by
  induction turns generalizing s heap trust with
  | nil => simp [faults]
  | cons t turns ih =>
    obtain ⟨harmless, wider, -, secure'⟩ := turn_secure m t secure
    intro fault mem
    rcases List.mem_append.mp mem with mem | mem
    · exact harmless fault (Option.mem_toList.mp mem)
    · exact ih secure' fault mem

end Session

namespace Program

variable {names : Namespace} {held : List Held} {caller : Option FrameId} {source : Source}
  {heap : Heap}

/-- Nothing needs to be known of the frames that were there before a program is compiled. -/
private theorem sound_nothing (heap : Heap) : heap.Sound fun _ => False :=
  ⟨fun _ known => known.elim, fun _ _ _ known => known.elim, fun _ _ _ _ known => known.elim⟩

theorem start_secure {p : Program} {later : Heap}
    (known : ∀ id, caller = some id → ∃ frame, heap.frame? id = some frame)
    (compiled : compile names held caller source heap = (.ok (.ok p), later)) :
    ∃ trust, (Session.start p).Secure later trust := by
  obtain ⟨trust, advance, settled⟩ :=
    (compile_careful (sound_nothing heap) known).returned compiled
  exact ⟨trust, advance.sound, by simpa [Session.start] using settled p rfl,
    by simp [Session.start],
    by simp [Session.start]⟩

/-- Neither compiling a source nor anything that a host does with the program later meets a
defect, whatever the frames held before. -/
theorem compile_and_session_harmless (m : Machine) (names : Namespace) (held : List Held)
    (caller : Option FrameId) (source : Source) (heap : Heap)
    (known : ∀ id, caller = some id → ∃ frame, heap.frame? id = some frame) :
    (∀ fault later, compile names held caller source heap = (.error fault, later) →
      fault.Harmless) ∧
    ∀ p later, compile names held caller source heap = (.ok (.ok p), later) →
      ∀ turns, ∀ fault ∈ Session.faults m (.start p, later) turns, fault.Harmless := by
  refine ⟨fun fault later failed => ?_, fun p later compiled turns => ?_⟩
  · exact ((compile_careful (sound_nothing heap) known).failed failed).1
  · obtain ⟨trust, secure⟩ := start_secure known compiled
    exact Session.faults_harmless m turns secure

/-- A host that calls a function with too few arguments is told so, and can read fields after it. -/
theorem compile_and_session_harmless_module : ∃ p later,
    compile [] [] none ⟨"module", "{f(x) = let y = x in y; g = f(true)}"⟩ .empty =
      (.ok (.ok p), later) ∧
    ∀ fault ∈ Session.faults .standard (.start p, later)
      [⟨.eval 0, 9, []⟩, ⟨.field 0 "f" .empty, 9, []⟩,
        ⟨.call 1 [] none ⟨⟨"host", ""⟩, 0, 0⟩, 9, []⟩, ⟨.field 0 "g" .empty, 9, []⟩],
      fault.Harmless := by
  have accepted : ((compile [] [] none ⟨"module", "{f(x) = let y = x in y; g = f(true)}"⟩
      .empty).1.toOption.bind Except.toOption).isSome := by decide +kernel
  have harmless := compile_and_session_harmless .standard [] [] none
    ⟨"module", "{f(x) = let y = x in y; g = f(true)}"⟩ .empty (by simp)
  rcases ran : compile [] [] none ⟨"module", "{f(x) = let y = x in y; g = f(true)}"⟩ .empty with
    ⟨fault | errors | p, later⟩
  · simp [ran, Except.toOption] at accepted
  · simp [ran, Except.toOption] at accepted
  · exact ⟨p, later, rfl, harmless.2 p later ran _⟩

end Program

end ShapeLang
