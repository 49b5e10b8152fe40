import ShapeLang.Proofs.Denotation.Host
import ShapeLang.Proofs.Reevaluation.Simulation
import ShapeLang.Proofs.Session.Safety
import ShapeLang.Proofs.Session.Termination

/-! # A host that works with what it got

A host evaluates a program, reads fields and items, calls functions, compares values and shows them.
Each move may use what earlier ones gave; where an earlier one failed, a move that needs its value
fails in the same way. What a host gets agrees with what its moves denote.
-/

namespace ShapeLang.Reevaluation

open Denotation

/-- What a host can do with a program and with what it got before, which it names by the number of
the move that gave it. -/
inductive Move where
  /-- Evaluates the program. -/
  | eval
  /-- A value that the host makes itself. -/
  | constant (value : Constant)
  | item (value index : Nat)
  | field (value : Nat) (name : String) (context : Context)
  | call (function : Nat) (args : List Nat) (site : Location)
  | equal (left right : Nat)
  | shown (value : Nat)

/-- What a host gets for a move, if values are of the given type. -/
inductive Answer (α : Type) where
  | value (value : α)
  | truth (holds : Bool)
  | text (content : String)
  /-- There is no such thing. -/
  | nothing

namespace Answer

variable {α : Type}

def ofOption : Option α → Answer α
  | some found => .value found
  | none => .nothing

def value? : Answer α → Option α
  | .value found => some found
  | _ => none

end Answer

/-- What a host got for its moves so far. -/
abbrev History := List (Except Fault (Answer Value))

section Perform

variable (history : History)

/-- The value that an earlier move gave, if it gave one. -/
def remember (i : Nat) : Eval (Option Value) :=
  match history[i]? with
  | some (.ok answer) => pure answer.value?
  | some (.error fault) => throw fault
  | none => pure none

/-- The values that earlier moves gave. -/
def rememberAll : List Nat → Eval (List Value)
  | [] => pure []
  | i :: is => do
    let first ← remember history i
    let rest ← rememberAll is
    pure (first.toList ++ rest)

/-- A move that needs a value. -/
def remembering (i : Nat) (next : Value → Eval (Answer Value)) : Eval (Answer Value) := do
  match ← remember history i with
  | some value => next value
  | none => pure .nothing

/-- Performs a move, with a way to compare values and an evaluator. -/
def perform (compare : Comparison) (m : Machine) (evaluate : Evaluator) (held : List Held)
    (p : Program) : Move → Eval (Answer Value)
  | .eval => .value <$> evaluate (.frame p.frame :: held) p.frame p.expr
  | .constant value => pure (.value value.toValue)
  | .item i index => remembering history i fun value =>
    match value with
    | .list items _ => pure (.ofOption items[index]?)
    | _ => pure .nothing
  | .field i name context => remembering history i fun value =>
    .ofOption <$> Eval.field? evaluate held value name context
  | .call i args site => remembering history i fun function => do
    let args ← rememberAll history args
    let frame ← Session.callingFrame none
    .value <$> Eval.call m evaluate held function args frame site
  | .equal i j => remembering history i fun a => remembering history j fun b =>
    .truth <$> Eval.blaming held .empty (compare a b)
  | .shown i => remembering history i fun value => pure (.text value.shown)

end Perform

section Denote

variable (dens : List (Except ErrorKind (Answer Den)))

/-- The denotation of the value that an earlier move gave. -/
def rememberDen (i : Nat) : Outcome (Option Den) :=
  match dens[i]? with
  | some (.ok answer) => pure answer.value?
  | some (.error kind) => throw kind
  | none => pure none

def rememberDens : List Nat → Outcome (List Den)
  | [] => pure []
  | i :: is => do
    let first ← rememberDen dens i
    let rest ← rememberDens is
    pure (first.toList ++ rest)

def rememberingDen (i : Nat) (next : Den → Outcome (Answer Den)) : Outcome (Answer Den) := do
  match ← rememberDen dens i with
  | some value => next value
  | none => pure .nothing

/-- What a move denotes, for a program in an environment. -/
def denoteMove (m : Machine) (den : Denoter) (env : Env) (expr : Expr) :
    Move → Outcome (Answer Den)
  | .eval => .value <$> den env [.part 0] expr
  | .constant value => pure (.value (.ofPlain value.toValue))
  | .item i index => rememberingDen dens i fun value =>
    match value with
    | .list items => pure (.ofOption items[index]?)
    | _ => pure .nothing
  | .field i name _ => rememberingDen dens i fun value => .ofOption <$> field? den value name
  | .call i args _ => rememberingDen dens i fun function => do
    let args ← rememberDens dens args
    .value <$> call m den function args 0 []
  | .equal i j => rememberingDen dens i fun a => rememberingDen dens j fun b =>
    .truth <$> expect (Comparison.content a.outline b.outline)
  | .shown i => rememberingDen dens i fun value => pure (.text value.outline.shown)

end Denote

/-- An answer and the denotation of an answer. -/
inductive MeansAnswer (roles : Roles) : Answer Value → Answer Den → Prop
  | value {value : Value} {value' : Den} (means : Means roles value value') :
      MeansAnswer roles (.value value) (.value value')
  | truth (holds : Bool) : MeansAnswer roles (.truth holds) (.truth holds)
  | text (content : String) : MeansAnswer roles (.text content) (.text content)
  | nothing : MeansAnswer roles .nothing .nothing

/-- What a host got for one move, and what the move denotes. Nothing is known of an answer that is
spoiled but that it means something. -/
inductive Entry (lenient : Prop) (roles : Roles) :
    Except Fault (Answer Value) → Except ErrorKind (Answer Den) → Prop
  | ok {answer : Answer Value} {answer' : Answer Den} (means : MeansAnswer roles answer answer') :
      Entry lenient roles (.ok answer) (.ok answer')
  | failed {e : Exception} {kind : ErrorKind} (same : e.kind = kind) :
      Entry lenient roles (.error (.exception e)) (.error kind)
  | spoiled (free : lenient) {answer : Answer Value} {answer' : Answer Den}
      (means : MeansAnswer roles answer answer') :
      Entry lenient roles (.ok answer) (.error Comparison.refusal)
  | spoiledFailed (free : lenient) (e : Exception) :
      Entry lenient roles (.error (.exception e)) (.error Comparison.refusal)

/-- What a host got for its moves, and what they denote. -/
abbrev Entries (lenient : Prop) (roles : Roles) :
    History → List (Except ErrorKind (Answer Den)) → Prop :=
  List.Forall₂ (Entry lenient roles)

variable {m : Machine} {lenient : Prop} {roles wider : Roles} {heap : Heap} {env : Env}
  {p : Program} {history : History} {dens : List (Except ErrorKind (Answer Den))}
  {evaluate : Evaluator} {compare : Comparison} {held : List Held}

namespace MeansAnswer

variable {answer : Answer Value} {answer' : Answer Den}

theorem mono (means : MeansAnswer roles answer answer') (within : roles.Within wider) :
    MeansAnswer wider answer answer' := by
  cases means with
  | value means => exact .value (means.mono within)
  | truth holds => exact .truth holds
  | text content => exact .text content
  | nothing => exact .nothing

theorem value? (means : MeansAnswer roles answer answer') :
    Option.Rel (Means roles) answer.value? answer'.value? := by
  cases means with
  | value means => exact .some means
  | _ => exact .none

theorem ofOption {found : Option Value} {found' : Option Den}
    (same : Option.Rel (Means roles) found found') :
    MeansAnswer roles (.ofOption found) (.ofOption found') := by
  cases same with
  | some means => exact .value means
  | none => exact .nothing

end MeansAnswer

theorem Entry.mono {answer : Except Fault (Answer Value)} {answer' : Except ErrorKind (Answer Den)}
    (entry : Entry lenient roles answer answer') (within : roles.Within wider) :
    Entry lenient wider answer answer' := by
  cases entry with
  | ok means => exact .ok (means.mono within)
  | failed same => exact .failed same
  | spoiled free means => exact .spoiled free (means.mono within)
  | spoiledFailed free e => exact .spoiledFailed free e

namespace Entries

theorem mono (entries : Entries lenient roles history dens) (within : roles.Within wider) :
    Entries lenient wider history dens :=
  entries.imp fun _ _ entry => entry.mono within

theorem getElem? (entries : Entries lenient roles history dens) (i : Nat) :
    Option.Rel (Entry lenient roles) history[i]? dens[i]? := by
  induction entries generalizing i with
  | nil => exact .none
  | cons entry _ ih =>
    cases i with
    | zero => exact .some entry
    | succ i => exact ih i

theorem snoc (entries : Entries lenient roles history dens)
    {answer : Except Fault (Answer Value)} {answer' : Except ErrorKind (Answer Den)}
    (entry : Entry lenient roles answer answer') :
    Entries lenient roles (history ++ [answer]) (dens ++ [answer']) := by
  induction entries with
  | nil => exact .cons entry .nil
  | cons first _ ih => exact .cons first ih

end Entries

section Agrees

variable (reflects : Reflects m lenient [] roles heap) (entries : Entries lenient roles history dens)
include reflects entries

/-- A value that was given before. -/
theorem agrees_remember (i : Nat) :
    Agrees m lenient [] heap roles (remember history i) (fun _ => rememberDen dens i)
      fun wider found found' => Option.Rel (Means wider) found found' := by
  have same := entries.getElem? i
  unfold remember rememberDen
  generalize history[i]? = answer at same ⊢
  generalize dens[i]? = answer' at same ⊢
  cases same with
  | none => exact .pure reflects .none
  | some entry =>
    cases entry with
    | ok means => exact .pure reflects means.value?
    | failed same =>
      exact Ends.throw ⟨⟨roles, .refl roles, reflects⟩, .inl (same ▸ .throw _)⟩
    | spoiled free means =>
      have recalled : Agrees m lenient [] heap roles _ (fun _ => pure _)
          fun wider found found' => Option.Rel (Means wider) found found' :=
        .pure reflects means.value?
      exact recalled.spoil ⟨free, .throw _⟩
    | spoiledFailed free e =>
      exact Ends.throw ⟨⟨roles, .refl roles, reflects⟩, .inr (.inr ⟨free, .throw _⟩)⟩

/-- Values that were given before. -/
theorem agrees_rememberAll (is : List Nat) :
    Agrees m lenient [] heap roles (rememberAll history is) (fun _ => rememberDens dens is)
      MeansAll := by
  induction is generalizing heap roles with
  | nil => exact .pure reflects .nil
  | cons i is ih =>
    refine (agrees_remember reflects entries i).bind
      fun first first' later wider within reflects' same => ?_
    refine (ih reflects' (entries.mono within)).bind
      fun rest rest' last widest within' reflects'' all => ?_
    cases same with
    | none => exact .pure reflects'' all
    | some means => exact .pure reflects'' (.cons (means.mono within') all)

/-- A move that needs a value. -/
theorem agrees_remembering (i : Nat) {next : Value → Eval (Answer Value)}
    {next' : Nat → Den → Outcome (Answer Den)}
    (second : ∀ value value' later wider, roles.Within wider → Reflects m lenient [] wider later →
      Means wider value value' →
      Agrees m lenient [] later wider (next value) (next' · value') MeansAnswer) :
    Agrees m lenient [] heap roles (remembering history i next)
      (fun n => rememberingDen dens i (next' n)) MeansAnswer := by
  refine (agrees_remember reflects entries i).bind
    fun found found' later wider within reflects' same => ?_
  cases same with
  | none => exact .pure reflects' .nothing
  | some means => exact second _ _ later wider within reflects' means

omit entries in
/-- A comparison that the host makes. It is spoiled where a lenient one answers what contents leave
open. -/
theorem agrees_equal (follows : Comparison.Follows lenient compare) {a b : Value} {a' b' : Den}
    (means : Means roles a a') (means' : Means roles b b') :
    Agrees m lenient [] heap roles (Eval.blaming held .empty (compare a b))
      (fun _ => expect (Comparison.content a'.outline b'.outline))
      fun _ holds holds' => holds = holds' := by
  rw [← means.alike.content means'.alike]
  rcases follows a b with same | ⟨free, refused, answer, same⟩
  · rw [same]
    exact (Agrees.test reflects rfl).mono fun _ _ _ ok => ok.2
  · rw [same, refused]
    have answered : Agrees m lenient [] heap roles (pure answer) (fun _ => pure answer)
        fun _ holds holds' => holds = holds' := .pure reflects rfl
    exact answered.spoil ⟨free, .of_run rfl⟩

/-- A call that the host makes. -/
theorem agrees_hostCall (simulates : Simulates m lenient evaluate) {value : Value} {value' : Den}
    (means : Means roles value value') (args : List Nat) (site : Location) :
    Agrees m lenient [] heap roles
      (do
        let args ← rememberAll history args
        let frame ← Session.callingFrame none
        Answer.value <$> Eval.call m evaluate held value args frame site)
      (fun n => do
        let args ← rememberDens dens args
        Answer.value <$> call m (denote m n) value' args 0 []) MeansAnswer := by
  refine (agrees_rememberAll reflects entries args).bind
    fun values denoted later wider within reflects' all => ?_
  obtain ⟨depth, outermost, ends⟩ := Session.ends_callingFrame later none
  refine Agrees.left (Ends.mono ends ?_ fun _ _ impossible => impossible.elim)
  rintro id after ⟨⟨frame, found, rfl⟩, reached⟩
  have reflects'' : Reflects m lenient [] wider after := by
    rcases reached with rfl | rfl
    · exact reflects'
    · exact reflects'.alloc ..
  refine ⟨wider, .refl wider, Agrees.map ?_⟩
  rw [← outermost rfl]
  exact (agrees_call simulates reflects'' (means.mono within) all found).mono
    fun _ _ _ means => .value means

/-- A host finds what its moves denote. -/
theorem agrees_perform (follows : Comparison.Follows lenient compare)
    (simulates : Simulates m lenient evaluate) (sits : Sits roles p.frame env [.part 0] p.expr)
    (move : Move) :
    Agrees m lenient [] heap roles (perform history compare m evaluate held p move)
      (fun n => denoteMove dens m (denote m n) env p.expr move) MeansAnswer := by
  cases move with
  | eval => exact ((simulates.at reflects sits).mono fun _ _ _ means => .value means).map
  | constant value => exact .pure reflects (.value (.of_plain (Constant.toValue_plain value)))
  | item i index =>
    refine agrees_remembering reflects entries i fun value value' later wider _ reflects' means => ?_
    cases means with
    | list items parts =>
      exact .pure reflects' (.ofOption (MeansAll.getElem? (meansAll_of_pairs parts) index))
    | _ => exact .pure reflects' .nothing
  | field i name context =>
    refine agrees_remembering reflects entries i fun value value' later wider _ reflects' means => ?_
    exact ((agrees_field? simulates reflects' means).mono fun _ _ _ same => .ofOption same).map
  | call i args site =>
    refine agrees_remembering reflects entries i
      fun value value' later wider within reflects' means => ?_
    exact agrees_hostCall reflects' (entries.mono within) simulates means args site
  | equal i j =>
    refine agrees_remembering reflects entries i
      fun a a' later wider within reflects' means => ?_
    refine agrees_remembering reflects' (entries.mono within) j
      fun b b' last widest within' reflects'' means' => ?_
    refine Agrees.map ((agrees_equal reflects'' follows (means.mono within') means').mono ?_)
    rintro _ holds _ rfl
    exact .truth holds
  | shown i =>
    refine agrees_remembering reflects entries i fun value value' later wider _ reflects' means => ?_
    rw [means.alike.shown]
    exact .pure reflects' (.text _)

end Agrees

section Ends

/-- Earlier moves failed with exceptions if they failed. -/
def Fair (history : History) : Prop :=
  ∀ fault, .error fault ∈ history → ∃ e, fault = .exception e

theorem Entries.fair (entries : Entries lenient roles history dens) : Fair history := by
  intro fault mem
  obtain ⟨i, found⟩ := List.mem_iff_getElem?.mp mem
  have same := entries.getElem? i
  rw [found] at same
  generalize dens[i]? = answer' at same
  cases same with | some entry =>
  cases entry with
  | failed => exact ⟨_, rfl⟩
  | spoiledFailed => exact ⟨_, rfl⟩

variable (fair : Fair history) (heap : Heap)
include fair

private theorem ends_remember (i : Nat) : Ends (remember history i) heap
    (fun found after => after = heap ∧
      ∀ value ∈ found, ∃ answer, .ok answer ∈ history ∧ answer.value? = some value)
    fun fault after => after = heap ∧ ∃ e, fault = .exception e := by
  unfold remember
  cases found : history[i]? with
  | none => exact .pure ⟨rfl, by simp⟩
  | some result =>
    have mem := List.mem_of_getElem? found
    cases result with
    | error fault => exact Ends.throw ⟨rfl, fair fault mem⟩
    | ok answer => exact .pure ⟨rfl, fun value same => ⟨answer, mem, same⟩⟩

private theorem ends_rememberAll (is : List Nat) : Ends (rememberAll history is) heap
    (fun values after => after = heap ∧
      ∀ value ∈ values, ∃ answer, .ok answer ∈ history ∧ answer.value? = some value)
    fun fault after => after = heap ∧ ∃ e, fault = .exception e := by
  induction is with
  | nil => exact .pure ⟨rfl, by simp⟩
  | cons i is ih =>
    refine Ends.bind (ends_remember fair heap i) ?_
    rintro first _ ⟨rfl, there⟩
    refine Ends.bind ih ?_
    rintro rest _ ⟨rfl, there'⟩
    refine .pure ⟨rfl, fun value mem => ?_⟩
    rcases List.mem_append.mp mem with mem | mem
    · exact there value (Option.mem_toList.mp mem)
    · exact there' value mem

omit fair in
private theorem not_outOfFuel {fault : Fault} (thrown : ∃ e, fault = .exception e) :
    fault ≠ .outOfFuel := by
  obtain ⟨e, rfl⟩ := thrown
  rintro ⟨⟩

private theorem remembering_terminates (i : Nat) {next : Nat → Value → Eval (Answer Value)}
    (ends : ∀ value, Terminates (next · value) heap fun _ _ => True) :
    Terminates (fun fuel => remembering history i (next fuel)) heap fun _ _ => True := by
  refine Terminates.through (fun _ after => after = heap) (.of_ends ((ends_remember fair heap i).mono
    (fun _ _ ok => ok.1) fun _ _ failed => not_outOfFuel failed.2)) ?_
  rintro found _ rfl
  cases found with
  | some value => exact ends value
  | none => exact .of_ends (.pure trivial)

/-- Every move ends, however values are compared. -/
theorem perform_terminates (move : Move) :
    Terminates (fun fuel => perform history compare m (Eval.upToComparing compare m fuel) held p
      move) heap fun _ _ => True := by
  have plain (value : Value) {next : Value → Answer Value} :
      Terminates (fun _ => (pure (next value) : Eval (Answer Value))) heap fun _ _ => True :=
    .of_ends (.pure trivial)
  cases move with
  | eval =>
    exact .map ((Eval.upToComparing_terminates heap _ _ _).mono fun _ _ _ => trivial)
  | constant value => exact .of_ends (.pure trivial)
  | item i index =>
    refine remembering_terminates fair heap i fun value => ?_
    cases value <;> exact .of_ends (.pure trivial)
  | field i name context =>
    exact remembering_terminates fair heap i fun value =>
      .map (Eval.field?_comparing_terminates heap held value name context)
  | call i args site =>
    refine remembering_terminates fair heap i fun function => ?_
    refine Terminates.through (fun _ after => after = heap) (.of_ends ((ends_rememberAll fair heap
      args).mono (fun _ _ ok => ok.1) fun _ _ failed => not_outOfFuel failed.2)) ?_
    rintro values after rfl
    exact (Session.callingFrame_terminates after none).bind fun frame later _ =>
      .map (Eval.call_comparing_terminates later held function values frame site)
  | equal i j =>
    refine remembering_terminates fair heap i fun a => remembering_terminates fair heap j fun b => ?_
    exact .map (.of_ends (.blaming (fun _ _ => trivial) fun _ _ => by simp))
  | shown i => exact remembering_terminates fair heap i fun value => .of_ends (.pure trivial)

end Ends

section Secured

/-- What a host has refers to trusted frames. -/
structure Secured (p : Program) (history : History) (heap : Heap) (trust : Trust) : Prop where
  sound : heap.Sound trust
  settled : p.Settled heap trust
  values : ∀ answer value, .ok answer ∈ history → answer.value? = some value →
    heap.Trusts trust value

variable {trust wider' : Trust} {later : Heap}

theorem Secured.advance (secured : Secured p history heap trust)
    (advance : Advance heap trust later wider') : Secured p history later wider' :=
  ⟨advance.sound, ⟨advance.included _ secured.settled.1,
      advance.fits secured.settled.1 secured.settled.2⟩,
    fun answer value mem same => advance.trusts (secured.values answer value mem same)⟩

variable (fair : Fair history) (secured : Secured p history heap trust)
include fair secured

private theorem remembering_careful (i : Nat) {next : Value → Eval (Answer Value)}
    (careful : ∀ value, heap.Trusts trust value → Careful (next value) heap trust
      fun answer later wider => ∀ value ∈ answer.value?, later.Trusts wider value) :
    Careful (remembering history i next) heap trust
      fun answer later wider => ∀ value ∈ answer.value?, later.Trusts wider value := by
  refine Ends.bind ((ends_remember fair heap i).mono (fun _ _ ok => ok) ?_) ?_
  · rintro fault _ ⟨rfl, e, rfl⟩
    exact ⟨.exception e, trust, .refl secured.sound⟩
  · rintro found _ ⟨rfl, there⟩
    cases found with
    | none => exact Careful.pure secured.sound (by simp [Answer.value?])
    | some value =>
      obtain ⟨answer, mem, same⟩ := there value rfl
      exact careful value (secured.values answer value mem same)

/-- No move meets a defect, and what it gives refers to trusted frames. -/
theorem perform_careful (safe : Eval.Safe evaluate) (move : Move) :
    Careful (perform history compare m evaluate held p move) heap trust
      fun answer later wider => ∀ value ∈ answer.value?, later.Trusts wider value := by
  have sound := secured.sound
  cases move with
  | eval =>
    have world : Eval.World heap [p.frame] [] :=
      ⟨trust, sound, by simp [secured.settled.1], by simp⟩
    refine .map ((Careful.of_stays (safe heap _ _ _ world secured.settled.2) sound
      (by simp [secured.settled.1]) (by simp)).mono fun value later wider _ trusted => ?_)
    simpa [Answer.value?] using trusted
  | constant value =>
    refine .pure sound fun made same => ?_
    obtain rfl : value.toValue = made := by simpa [Answer.value?] using same
    exact (Constant.toValue_plain value).holds
  | item i index =>
    refine remembering_careful fair secured i fun value trusted => ?_
    cases trusted with
    | @list items frames parts =>
      refine .pure sound fun item same => ?_
      cases found : items[index]? with
      | none => simp [found, Answer.ofOption, Answer.value?] at same
      | some other =>
        obtain rfl : other = item := by simpa [found, Answer.ofOption, Answer.value?] using same
        exact parts other (List.mem_of_getElem? found)
    | _ => exact .pure sound (by simp [Answer.value?])
  | field i name context =>
    refine remembering_careful fair secured i fun value trusted => .map ?_
    refine (field?_careful safe sound trusted).mono fun found later wider _ known => ?_
    cases found with
    | none => simp [Answer.ofOption, Answer.value?]
    | some part => simpa [Answer.ofOption, Answer.value?] using known
  | call i args site =>
    refine remembering_careful fair secured i fun function trusted => ?_
    refine Ends.bind ((ends_rememberAll fair heap args).mono (fun _ _ ok => ok) ?_) ?_
    · rintro fault _ ⟨rfl, e, rfl⟩
      exact ⟨.exception e, trust, .refl sound⟩
    rintro values _ ⟨rfl, there⟩
    refine (Session.callingFrame_careful sound none).bind fun frame later wider advance known => ?_
    have given : ∀ arg ∈ values, later.Trusts wider arg := by
      intro arg mem
      obtain ⟨answer, mem', same⟩ := there arg mem
      exact advance.trusts (secured.values answer arg mem' same)
    refine .map ((call_careful safe advance.sound (advance.trusts trusted) given known).mono
      fun value last widest _ trusted' => ?_)
    simpa [Answer.value?] using trusted'
  | equal i j =>
    refine remembering_careful fair secured i fun a _ => ?_
    refine remembering_careful fair secured j fun b _ => .map ?_
    exact .blaming (fun holds _ => ⟨trust, .refl sound, by simp [Answer.value?]⟩)
      fun _ _ _ => ⟨.exception _, trust, .refl sound⟩
  | shown i =>
    exact remembering_careful fair secured i fun value _ => .pure sound (by simp [Answer.value?])

end Secured

end ShapeLang.Reevaluation
