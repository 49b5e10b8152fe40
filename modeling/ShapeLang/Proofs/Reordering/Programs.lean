import Mathlib
import ShapeLang.Proofs.Compilation
import ShapeLang.Proofs.Grammar.Succession
import ShapeLang.Proofs.Reordering.Resolution
import ShapeLang.Proofs.Reordering.Sessions
import ShapeLang.Proofs.Session.Exporting

/-! # The order of definitions does not matter

Programs whose definitions are in another order are twins. One of them is accepted exactly if the
other one is, and a host that works with them cannot tell them apart, but for the order of the names
in modules.
-/

namespace ShapeLang

open Reordering

variable {literals : Location → Location → Prop} {layouts : Layouts} {heap heap' : Heap}
  {trust : Trust} {m : Machine} {fuel : Nat} {held : List Held}

section Results

variable {α β : Type} {action : Eval α} {action' : Eval β}

/-- Faults of an evaluation that meets no defect. -/
theorem Fault.Like.rearranged {fault fault' : Fault}
    (like : fault.Like ErrorKind.Rearranged fault') (harmless : fault.Harmless) :
    fault.Rearranged fault' := by
  cases like with
  | exception same => exact .exception same
  | defect d _ => exact (harmless d rfl).elim
  | outOfFuel => exact .outOfFuel

/-- Evaluations that end alike have the same result. -/
theorem Reordering.Tandem.results {post : Layouts → α → β → Prop} {same : α → β → Prop}
    (tandem : Tandem literals layouts action action' heap heap' post)
    {returns : α → Heap → Trust → Prop} (careful : Careful action heap trust returns)
    (ok : ∀ wider a b, post wider a b → same a b) :
    ResultsAlike same (action heap).1 (action' heap').1 := by
  unfold Tandem at tandem
  rcases ran : action heap with ⟨fault | a, after⟩
  · rw [ran] at tandem
    generalize action' heap' = last at tandem ⊢
    cases tandem with
    | failed failure => exact .error (failure.1.rearranged (careful.failed ran).1)
  · rw [ran] at tandem
    generalize action' heap' = last at tandem ⊢
    cases tandem with
    | returned done =>
      obtain ⟨wider, -, -, holds⟩ := done
      exact .ok (ok wider _ _ holds)

/-- What is known of the first evaluation. -/
theorem Reordering.Tandem.knowing {post : Layouts → α → β → Prop} {known : α → Prop}
    (tandem : Tandem literals layouts action action' heap heap' post)
    (ends : Ends action heap (fun a _ => known a) fun _ _ => True) :
    Tandem literals layouts action action' heap heap' fun wider a b =>
      known a ∧ post wider a b := by
  unfold Tandem at tandem ⊢
  unfold Ends at ends
  generalize action heap = last, action' heap' = last' at tandem ends ⊢
  cases tandem with
  | returned done =>
    obtain ⟨wider, later, paired, holds⟩ := done
    exact .returned ⟨wider, later, paired, ends, holds⟩
  | failed failure => exact .failed failure

theorem Reordering.Partner.shownAlike {value value' : Value}
    (partner : Partner literals layouts value value') : value.ShownAlike value' :=
  ⟨partner.rearranged, partner.rearranged.shown⟩

end Results

/-- What two hosts have looks the same, and whatever they do next has the same result. -/
structure Session.LooksAlike (m : Machine) (state state' : Session × Heap) : Prop where
  values : List.Forall₂ Value.ShownAlike state.1.values state'.1.values
  recognizers : List.Forall₂ (fun r r' => r.isShape = r'.isShape ∧ r.is2d = r'.is2d ∧
    r.is3d = r'.is3d ∧ r.bounds = r'.bounds) state.1.recognizers state'.1.recognizers
  faults : ∀ t : Turn, t.request.UsesPrograms →
    Option.Rel Fault.Rearranged (Session.turn m state t).1 (Session.turn m state' t).1
  eval : ∀ (i : Nat) p p', state.1.programs[i]? = some p → state'.1.programs[i]? = some p' →
    ∀ fuel held, ResultsAlike Value.ShownAlike (p.eval m fuel held state.2).1
      (p'.eval m fuel held state'.2).1
  field : ∀ (i : Nat) value value', state.1.values[i]? = some value →
    state'.1.values[i]? = some value' → ∀ fuel held name context,
    ResultsAlike (Option.Rel Value.ShownAlike)
      (Eval.field? (Eval.upTo m fuel) held value name context state.2).1
      (Eval.field? (Eval.upTo m fuel) held value' name context state'.2).1
  dist : ∀ (i : Nat) r r', state.1.recognizers[i]? = some r → state'.1.recognizers[i]? = some r' →
    ∀ fuel held p t, ResultsAlike Eq (r.dist (Eval.upTo m fuel) held p t state.2).1
      (r'.dist (Eval.upTo m fuel) held p t state'.2).1
  colour : ∀ (i : Nat) r r', state.1.recognizers[i]? = some r →
    state'.1.recognizers[i]? = some r' →
    ∀ fuel held p t, ResultsAlike Eq (r.colour (Eval.upTo m fuel) held p t state.2).1
      (r'.colour (Eval.upTo m fuel) held p t state'.2).1
  shader : ∀ (i : Nat) r r', state.1.recognizers[i]? = some r →
    state'.1.recognizers[i]? = some r' →
    ∀ fuel held, ResultsAlike (fun out out' => out.1 = out'.1 ∧ Option.Rel Fault.Rearranged out.2 out'.2)
      (r.shader (Eval.upTo m fuel) held fuel state.2).1
      (r'.shader (Eval.upTo m fuel) held fuel state'.2).1

section Hosts

variable (distinct : ∀ place place' other other', literals place place' → literals other other' →
  (place = other ↔ place' = other'))
include distinct

/-- Shader code is the same, or lacks the same for mistakes of the same kind. -/
theorem RecognizerPartner.shaders {r r' : Recognizer} (paired : Paired literals layouts heap heap')
    (known : RecognizerPartner literals layouts r r') (sound : heap.Sound trust)
    (settled : r.Settled heap trust) (depth : Nat) (held' : List Held) :
    Tandem literals layouts (r.shader (Eval.upTo m fuel) held depth)
      (r'.shader (Eval.upTo m fuel) held' depth) heap heap' fun _ out out' =>
        out.1 = out'.1 ∧ Option.Rel Fault.Rearranged out.2 out'.2 := by
  have careful : Careful (r.writeShader (Eval.upTo m fuel) held depth [.dist, .colour]) heap trust
      fun out _ _ => ∀ fault, out.2 = some fault → fault.Harmless :=
    writeShader_careful (Eval.upTo_safe m fuel) sound settled [.dist, .colour]
  have tandem : Tandem literals layouts (r.shader (Eval.upTo m fuel) held depth)
      (r'.shader (Eval.upTo m fuel) held' depth) heap heap' fun _ out out' =>
        out.1 = out'.1 ∧ Option.Rel (Fault.Like ErrorKind.Rearranged) out.2 out'.2 :=
    tandem_shader distinct paired known fuel depth
  have harmless : Ends (r.shader (Eval.upTo m fuel) held depth) heap
      (fun out _ => ∀ fault, out.2 = some fault → fault.Harmless) fun _ _ => True :=
    Ends.mono careful (fun _ _ ok => by
      obtain ⟨_, -, harmless⟩ := ok
      exact harmless) fun _ _ _ => trivial
  refine (tandem.knowing harmless).mono ?_
  rintro wider ⟨text, fault⟩ ⟨_, fault'⟩ - ⟨harmless, rfl, like⟩
  refine ⟨rfl, ?_⟩
  dsimp only at like harmless ⊢
  cases like with
  | none => exact .none
  | some like => exact .some (like.rearranged (harmless _ rfl))

/-- Hosts of twin programs see the same. -/
theorem Reordering.Coupled.corresponds {state state' : Session × Heap}
    (coupled : Coupled literals layouts state state') (secure : state.1.Secure state.2 trust) :
    Session.LooksAlike m state state' := by
  obtain ⟨paired, partner⟩ := coupled
  have safe (fuel : Nat) := Eval.upTo_safe m fuel
  have program {i : Nat} {p p' : Program} (there : state.1.programs[i]? = some p)
      (there' : state'.1.programs[i]? = some p') : ProgramPartner literals layouts p p' := by
    have both := getElem?_of_forall₂ partner.programs i
    rw [there, there'] at both
    cases both with | some both => exact both
  have value {i : Nat} {value value' : Value} (there : state.1.values[i]? = some value)
      (there' : state'.1.values[i]? = some value') : Partner literals layouts value value' := by
    have both := getElem?_of_forall₂ partner.values i
    rw [there, there'] at both
    cases both with | some both => exact both
  have recognizer {i : Nat} {r r' : Recognizer} (there : state.1.recognizers[i]? = some r)
      (there' : state'.1.recognizers[i]? = some r') : RecognizerPartner literals layouts r r' := by
    have both := getElem?_of_forall₂ partner.recognizers i
    rw [there, there'] at both
    cases both with | some both => exact both
  have settled {i : Nat} {r : Recognizer} (there : state.1.recognizers[i]? = some r) :
      r.Settled state.2 trust :=
    secure.recognizers r (List.mem_of_getElem? there)
  refine ⟨partner.values.imp fun _ _ partner => partner.shownAlike,
    partner.recognizers.imp fun _ _ known => ⟨known.isShape, known.is2d, known.is3d, known.bounds⟩,
    fun t uses => ?_, fun i p p' there there' fuel held => ?_,
    fun i _ _ there there' fuel held name context => ?_, fun i r r' there there' fuel held p t => ?_,
    fun i r r' there there' fuel held p t => ?_, fun i r r' there there' fuel held => ?_⟩
  · obtain ⟨like, -⟩ := Coupled.turn (m := m) distinct ⟨paired, partner⟩ t uses
    obtain ⟨harmless, -⟩ := Session.turn_secure m t secure
    generalize (Session.turn m state t).1 = fault, (Session.turn m state' t).1 = fault' at *
    cases like with
    | none => exact .none
    | some like => exact .some (like.rearranged (harmless _ rfl))
  · have settled := secure.programs p (List.mem_of_getElem? there)
    exact (tandem_eval paired (program there there')).results (settled.eval_careful secure.sound)
      fun _ _ _ partner => partner.shownAlike
  · have trusted := secure.values _ (List.mem_of_getElem? there)
    exact (tandem_field? (upTo_follows m fuel) paired (value there there') name).results
      (field?_careful (safe fuel) secure.sound trusted)
      fun _ _ _ found => rel_mono (fun _ _ partner => partner.shownAlike) found
  · exact (tandem_sample (upTo_follows m fuel) paired (recognizer there there') .dist
      agreeing_toNumber p t).results (sample_careful (safe fuel) secure.sound (settled there))
      fun _ _ _ same => same
  · exact (tandem_sample (upTo_follows m fuel) paired (recognizer there there') .colour
      agreeing_toColour p t).results (sample_careful (safe fuel) secure.sound (settled there))
      fun _ _ _ same => same
  · exact (RecognizerPartner.shaders distinct paired (recognizer there there') secure.sound
      (settled there) fuel held).results
      (writeShader_careful (safe fuel) secure.sound (settled there) _) fun _ _ _ same => same

end Hosts

namespace Program

variable {names : Namespace} {caller : Option FrameId} {source source' : Source}
  {phrase phrase' : Phrase}

/-- What becomes of a phrase whose names are resolved. -/
theorem compile_ran (names : Namespace) (held : List Held)
    (known : ∀ id, caller = some id → ∃ frame, heap.frame? id = some frame) :
    ∃ depth, ∀ source phrase resolved, source.phrase = .ok phrase →
      phrase.analyze names = .ok resolved → compile names held caller source heap =
        (.ok (.ok ⟨source, phrase, resolved.expr, heap.frames.size⟩),
          (heap.alloc resolved.slotCount none caller none depth).2) := by
  refine ⟨caller.elim 0 heap.depthOf, fun source phrase resolved read analysed => ?_⟩
  rw [compile_run names held known read, analysed]

/-- A program is compiled exactly if its names can be resolved. -/
theorem compiles_iff (names : Namespace) (held : List Held)
    (known : ∀ id, caller = some id → ∃ frame, heap.frame? id = some frame)
    (read : source.phrase = .ok phrase) :
    (∃ p after, compile names held caller source heap = (.ok (.ok p), after)) ↔
      ∃ resolved, phrase.analyze names = .ok resolved := by
  obtain ⟨depth, ran⟩ := compile_ran names held known
  refine ⟨fun accepted => ?_, fun accepted => ?_⟩
  · obtain ⟨p, after, compiled⟩ := accepted
    cases analysed : phrase.analyze names with
    | ok resolved => exact ⟨resolved, rfl⟩
    | error fault =>
      have refused : ∃ fault, resolve names held caller phrase heap = (.error fault, heap) := by
        rw [resolve, analysed]
        cases fault <;> exact ⟨_, rfl⟩
      obtain ⟨fault, refused⟩ := refused
      simp only [compile, read, catching, bind_run, refused] at compiled
      cases fault <;> cases compiled
  · obtain ⟨resolved, analysed⟩ := accepted
    exact ⟨_, _, ran source phrase resolved read analysed⟩

/-- Two hosts that begin with programs whose definitions are in another order. -/
theorem exists_coupled (known : ∀ id, caller = some id → ∃ frame, heap.frame? id = some frame)
    (read : source.phrase = .ok phrase) (read' : source'.phrase = .ok phrase')
    (reordered : phrase.Reordered phrase') {p p' : Program} {after after' : Heap}
    (compiled : compile names held caller source heap = (.ok (.ok p), after))
    (compiled' : compile names held caller source' heap = (.ok (.ok p'), after')) :
    ∃ literals layouts, (∀ place place' other other', literals place place' →
        literals other other' → (place = other ↔ place' = other')) ∧
      Coupled literals layouts (.start p, after) (.start p', after') := by
  obtain ⟨resolved, analysed⟩ := (compiles_iff names held known read).mp ⟨p, after, compiled⟩
  obtain ⟨resolved', analysed'⟩ := (compiles_iff names held known read').mp ⟨p', after', compiled'⟩
  obtain ⟨depth, ran⟩ := compile_ran names held known
  cases (ran source phrase resolved read analysed).symm.trans compiled
  cases (ran source' phrase' resolved' read' analysed').symm.trans compiled'
  obtain ⟨literals, slots, distinct, matching, twin⟩ :=
    reordered.twin (literals_nodup read) (literals_nodup read') analysed analysed'
  have same : Paired literals (List.replicate heap.frames.size none) heap heap := .refl heap
  have paired := same.alloc matching none caller caller none none depth
  refine ⟨literals, _, distinct, paired, .cons ⟨rfl, twin.mono ?_⟩ .nil, .nil, .nil⟩
  rintro _ slot slot' ⟨rfl, together⟩
  have there := Layouts.getElem?_add (List.replicate heap.frames.size none) ⟨slots, none⟩
  rw [List.length_replicate] at there
  exact ⟨_, there, together⟩

/-- The same shader code, or one mistake of the same kind. -/
inductive CodeAlike : Except Fault (Except (List ProgramError) String) →
    Except Fault (Except (List ProgramError) String) → Prop
  | code (text : String) : CodeAlike (.ok (.ok text)) (.ok (.ok text))
  | mistake {e e' : Exception} (kind : e.kind.Rearranged e'.kind) :
      CodeAlike (.ok (.error [.exception e])) (.ok (.error [.exception e']))
  | outOfFuel : CodeAlike (.error .outOfFuel) (.error .outOfFuel)

private theorem codeAlike_catching {action action' : Eval String}
    (alike : ResultsAlike Eq (action heap).1 (action' heap').1) :
    CodeAlike (catching action heap).1 (catching action' heap').1 := by
  unfold catching
  generalize action heap = last, action' heap' = last' at alike ⊢
  obtain ⟨result, after⟩ := last
  obtain ⟨result', after'⟩ := last'
  cases alike with
  | ok same =>
    subst same
    exact .code _
  | error both =>
    cases both with
    | exception kind => exact .mistake kind
    | outOfFuel => exact .outOfFuel

/-- From texts with another order of definitions to the same shader code. -/
theorem shaderOfSource_reordered (m : Machine) (fuel : Nat)
    (read : source.phrase = .ok phrase) (read' : source'.phrase = .ok phrase')
    (reordered : phrase.Reordered phrase') {p p' : Program} {after after' : Heap}
    (compiled : compile names [] none source heap = (.ok (.ok p), after))
    (compiled' : compile names [] none source' heap = (.ok (.ok p'), after')) :
    CodeAlike (shaderOfSource m fuel names source heap).1
      (shaderOfSource m fuel names source' heap).1 := by
  have known : ∀ id, (none : Option FrameId) = some id → ∃ frame, heap.frame? id = some frame := by
    simp
  obtain ⟨literals, layouts, distinct, paired, partner⟩ :=
    exists_coupled known read read' reordered compiled compiled'
  obtain ⟨trust, secure⟩ := start_secure known compiled
  have settled := secure.programs p (by simp [Session.start])
  have both : ProgramPartner literals layouts p p' := by
    cases partner.programs with | cons both _ => exact both
  simp only [shaderOfSource, bind_run, compiled, compiled']
  have safe := Eval.upTo_safe m fuel
  refine codeAlike_catching (Tandem.results ((tandem_eval paired both).bind ?_)
    ((settled.eval_careful secure.sound).bind ?_ : Careful _ _ _ fun _ _ _ => True)
    fun _ _ _ same => same)
  · intro value value' wider _ _ later paired₁ given
    have met (nub nub' : Option Location) :
        RecognizerPartner literals wider (.new nub) (.new nub') := .none
    refine (tandem_require (upTo_follows m fuel) paired₁ (met _ _) given).bind ?_
    intro r r' widest _ _ later' paired₂ found
    refine (tandem_shader distinct paired₂ found fuel fuel).bind ?_
    rintro ⟨text, fault⟩ ⟨_, fault'⟩ _ _ _ - paired₃ ⟨rfl, like⟩
    cases like with
    | none => exact .pure paired₃ rfl
    | some like => exact .throw paired₃ like
  · intro value later wider advance trusted
    refine (require_careful safe advance.sound trusted (.new _)).bind ?_
    intro r later' wider' advance' settled'
    refine (writeShader_careful safe advance'.sound settled' _).bind ?_
    rintro ⟨text, fault⟩ last widest advance'' harmless
    cases fault with
    | none => exact .pure advance''.sound trivial
    | some fault => exact Ends.throw ⟨harmless fault rfl, widest, .refl advance''.sound⟩

/-- The order of definitions does not matter, in any `let` and in any module. Of two programs that
differ in it, one is compiled exactly if the other one is. Then a host that asks both for the same,
any number of times, finds the same: values that are shown alike up to the order of names in modules
or mistakes of the same kind, the same at each point of a shape and the same shader code. -/
theorem definition_order_irrelevant (m : Machine) (names : Namespace) (held : List Held)
    (caller : Option FrameId) (heap : Heap)
    (known : ∀ id, caller = some id → ∃ frame, heap.frame? id = some frame)
    (source source' : Source) (phrase phrase' : Phrase) (read : source.phrase = .ok phrase)
    (read' : source'.phrase = .ok phrase') (reordered : phrase.Reordered phrase') :
    ((∃ p after, compile names held caller source heap = (.ok (.ok p), after)) ↔
      ∃ p' after', compile names held caller source' heap = (.ok (.ok p'), after')) ∧
    ∀ p after p' after', compile names held caller source heap = (.ok (.ok p), after) →
      compile names held caller source' heap = (.ok (.ok p'), after') →
      (∀ turns, (∀ t ∈ turns, t.request.UsesPrograms) →
        Session.LooksAlike m (Session.play m (.start p, after) turns)
          (Session.play m (.start p', after') turns)) ∧
      ∀ fuel, CodeAlike (shaderOfSource m fuel names source heap).1
        (shaderOfSource m fuel names source' heap).1 := by
  refine ⟨?_, fun p after p' after' compiled compiled' => ⟨fun turns uses => ?_, fun fuel => ?_⟩⟩
  · rw [compiles_iff names held known read, compiles_iff names held known read', reordered.accepted_iff]
  · obtain ⟨literals, layouts, distinct, coupled⟩ :=
      exists_coupled known read read' reordered compiled compiled'
    obtain ⟨wider, coupled'⟩ := coupled.play (m := m) distinct turns uses
    obtain ⟨trust, secure⟩ := start_secure known compiled
    obtain ⟨trust', -, secure'⟩ := Session.play_secure m turns secure
    exact coupled'.corresponds distinct secure'
  · have alone : ∀ id, (none : Option FrameId) = some id → ∃ frame, heap.frame? id = some frame := by
      simp
    have analysed := (compiles_iff names held known read).mp ⟨p, after, compiled⟩
    have analysed' := (compiles_iff names held known read').mp ⟨p', after', compiled'⟩
    obtain ⟨q, later, alone₁⟩ := (compiles_iff names [] alone read).mpr analysed
    obtain ⟨q', later', alone₂⟩ := (compiles_iff names [] alone read').mpr analysed'
    exact shaderOfSource_reordered m fuel read read' reordered alone₁ alone₂

/-- A shape whose definitions need those after them. -/
def downward : Source :=
  ⟨"downward", "{dist(p, t) = f(t); f(x) = let a = b; b = x in a; colour(q) = [q.x, q.y, q.z]}"⟩

/-- The same shape with each definition after those that it needs. -/
def upward : Source :=
  ⟨"upward", "{colour(q) = [q.x, q.y, q.z]; f(x) = let b = x; a = b in a; dist(p, t) = f(t)}"⟩

/-- Both programs are compiled. A host evaluates them, reads a field, and exports the shape. -/
theorem definition_order_irrelevant_upward : ∃ phrase phrase',
    downward.phrase = .ok phrase ∧ upward.phrase = .ok phrase' ∧ phrase.Reordered phrase' ∧
    ∃ p after p' after', compile [] [] none downward .empty = (.ok (.ok p), after) ∧
      compile [] [] none upward .empty = (.ok (.ok p'), after') ∧
      Session.LooksAlike .standard
        (Session.play .standard (.start p, after)
          [⟨.eval 0, 9, []⟩, ⟨.field 0 "f" .empty, 9, []⟩, ⟨.recognizer none, 9, []⟩,
            ⟨.require 0 0, 9, []⟩])
        (Session.play .standard (.start p', after')
          [⟨.eval 0, 9, []⟩, ⟨.field 0 "f" .empty, 9, []⟩, ⟨.recognizer none, 9, []⟩,
            ⟨.require 0 0, 9, []⟩]) ∧
      CodeAlike (shaderOfSource .standard 9 [] downward .empty).1
        (shaderOfSource .standard 9 [] upward .empty).1 := by
  have accepted : ((compile [] [] none downward .empty).1.toOption.bind Except.toOption).isSome := by
    decide +kernel
  obtain ⟨phrase, phrase', read, read', reordered⟩ : ∃ phrase phrase',
      downward.phrase = .ok phrase ∧ upward.phrase = .ok phrase' ∧ phrase.Reordered phrase' := by
    refine ⟨_, _, (by cbv), (by cbv), .module [(_, _), (_, _), (_, _)] ?_ (List.reverse_perm _).symm⟩
    simp only [List.forall_mem_cons, List.not_mem_nil, false_implies, implies_true, and_true]
    refine ⟨.definition (.call [(_, _), (_, _)] (.ident rfl) ?_) (.call [(_, _)] (.ident rfl) ?_),
      .definition (.call [(_, _)] (.ident rfl) ?_)
        (.letIn [(_, _), (_, _)] ?_ (.swap _ _ _) (.ident rfl)),
      .definition (.call [(_, _)] (.ident rfl) ?_) (.list [(_, _), (_, _), (_, _)] ?_)⟩
    all_goals
      simp only [List.forall_mem_cons, List.not_mem_nil, false_implies, implies_true, and_true]
    · exact ⟨.ident rfl, .ident rfl⟩
    · exact .ident rfl
    · exact .ident rfl
    · exact ⟨.definition (.ident rfl) (.ident rfl), .definition (.ident rfl) (.ident rfl)⟩
    · exact .ident rfl
    · exact ⟨.dot rfl (.ident rfl), .dot rfl (.ident rfl), .dot rfl (.ident rfl)⟩
  obtain ⟨both, same⟩ := definition_order_irrelevant .standard [] [] none .empty (by simp) downward
    upward phrase phrase' read read' reordered
  rcases compiled : compile [] [] none downward .empty with ⟨fault | errors | p, after⟩
  · simp [compiled, Except.toOption] at accepted
  · simp [compiled, Except.toOption] at accepted
  · obtain ⟨p', after', compiled'⟩ := both.mp ⟨p, after, compiled⟩
    obtain ⟨corresponds, code⟩ := same p after p' after' compiled compiled'
    exact ⟨phrase, phrase', read, read', reordered, p, after, p', after', rfl, compiled',
      corresponds _ (by simp [Request.UsesPrograms]), code 9⟩

end Program

end ShapeLang
