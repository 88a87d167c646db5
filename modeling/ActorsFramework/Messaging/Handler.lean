import Mathlib.Data.List.AList
import Mathlib.Logic.Function.Iterate
import ActorsFramework.Lib.Any
import ActorsFramework.Supervisor.Contacts

/-!
# Messages and their handlers

`make_message` puts the arguments of a call into the body of a message, an
untyped `any`: none for no argument, the argument itself for one, a tuple for
several. `transformer` and `transformer_for_class` take them out again for a
handler with that many parameters. The two sides are separate code and agree
through the type of what the `any` holds, `encodedType`.

The types of arguments and parameters are decayed ones throughout, as in the
source; the basic types are a parameter. What a handler does is left open: an
invocation is recorded as the values it is called with.

`execute_make_message`: what was sent arrives. The constructor of `any` has a use
of its own for the tag `std::in_place_type_t`, so a message whose only argument is
such a tag carries something else.
-/

namespace ActorsFramework.Messaging

open Lib Supervisor

universe u v

variable {A κ : Type*} {B : Type u} {El : B → Type v}

/-- What stops a thread that executes a message. -/
inductive Fault where
  /-- `assert(body_.has_value())`. -/
  | noBody
  /-- `any_cast` throws `bad_any_cast`. -/
  | badAnyCast
  /-- An address or the contacts are misused. -/
  | contacts (e : Supervisor.Fault)
  deriving DecidableEq

/-- `message`. -/
structure Message (A κ : Type*) {B : Type u} (El : B → Type v) where
  /-- `sender_`. -/
  sender : Address A
  /-- `command_`. -/
  command : κ
  /-- `body_`. -/
  body : Val El .any

namespace Message

/-- `message::clone`. -/
def clone (m : Message A κ El) : Message A κ El := ⟨m.sender, m.command, m.body⟩

/-- `message::body<T>`. -/
def bodyAs [DecidableEq B] (m : Message A κ El) (t : Ty B) : Except Fault (Val El t) :=
  if m.body.hasValue then
    match m.body.anyCast t with
    | none => .error .badAnyCast
    | some x => .ok x
  else .error .noBody

end Message

section Make

variable [∀ b, Inhabited (El b)]

/-- `make_message_ptr`, its overloads for no argument, for one, and for several. -/
def makeMessagePtr (sender : Address A) (name : κ) :
    {ts : List (Ty B)} → Vals El ts → Message A κ El
  | [], .nil => ⟨sender, name, .noValue⟩
  | [_], .cons arg .nil => ⟨sender, name, arg.toAny⟩
  | _ :: _ :: _, args => ⟨sender, name, (Val.tuple args).toAny⟩

/-- `make_message`: the overloads are those of `make_message_ptr`, with the pointer owned. -/
def makeMessage (sender : Address A) (name : κ) :
    {ts : List (Ty B)} → Vals El ts → Message A κ El
  | [], .nil => ⟨sender, name, .noValue⟩
  | [_], .cons arg .nil => ⟨sender, name, arg.toAny⟩
  | _ :: _ :: _, args => ⟨sender, name, (Val.tuple args).toAny⟩

theorem makeMessage_eq (sender : Address A) (name : κ) {ts : List (Ty B)} (args : Vals El ts) :
    makeMessage sender name args = makeMessagePtr sender name args := by
  match ts, args with
  | [], .nil => rfl
  | [_], .cons _ .nil => rfl
  | _ :: _ :: _, _ => rfl

end Make

/-- The values a handler is called with. -/
abbrev Call (El : B → Type v) := Σ ts, Vals El ts

/-- `type_list` from `first` up to `last`, `tl_slice_t`. -/
def tlSlice (ts : List (Ty B)) (first last : ℕ) : List (Ty B) := (ts.drop first).take (last - first)

/-- A handler: its kind, and the decayed types of its parameters. -/
inductive Handler (B : Type u) where
  /-- A function object. -/
  | function (params : List (Ty B))
  /-- A member function with the object it is called on. -/
  | member (params : List (Ty B))

/-- The decayed types of the parameters. -/
def Handler.params : Handler B → List (Ty B)
  | .function params | .member params => params

section Invoke

variable [DecidableEq B]

/-- The body as a tuple of these types, expanded over the index sequence. -/
def applyTuple (ts : List (Ty B)) (m : Message A κ El) : Except Fault (Call El) :=
  match m.bodyAs (.tuple ts) with
  | .error e => .error e
  | .ok (.tuple args) => .ok ⟨_, args.gets (List.finRange ts.length)⟩

/-- `apply_impl`. -/
def applyImpl (params : List (Ty B)) (m : Message A κ El) : Except Fault (Call El) :=
  applyTuple (tlSlice params 0 params.length) m

/-- `apply_impl_for_class`. -/
def applyImplForClass (params : List (Ty B)) (m : Message A κ El) : Except Fault (Call El) :=
  applyTuple params m

/-- `transformer`, and its specialisations for no parameter and for one. -/
def transformer : List (Ty B) → Message A κ El → Except Fault (Call El)
  | [], _ => .ok ⟨[], .nil⟩
  | [t], m => (m.bodyAs t).map fun tmp => ⟨[t], .cons tmp .nil⟩
  | t :: t' :: ts, m => applyImpl (t :: t' :: ts) m

/-- `transformer_for_class`, and its specialisations for no parameter and for one. -/
def transformerForClass : List (Ty B) → Message A κ El → Except Fault (Call El)
  | [], _ => .ok ⟨[], .nil⟩
  | [t], m => (m.bodyAs t).map fun tmp => ⟨[t], .cons tmp .nil⟩
  | t :: t' :: ts, m => applyImplForClass (t :: t' :: ts) m

/-- `handler::invoke`, with this message as the current one. -/
def Handler.invoke (m : Message A κ El) : Handler B → Except Fault (Call El)
  | .function params => transformer params m
  | .member params => transformerForClass params m

/-- `handlers_`. -/
abbrev Handlers (κ : Type*) (B : Type u) := AList fun _ : κ => Handler B

variable [DecidableEq κ]

/-- `on`: the handler that was there first stays. -/
def Handlers.on (handlers : Handlers κ B) (name : κ) (h : Handler B) : Handlers κ B :=
  if (handlers.lookup name).isSome then handlers else handlers.insert name h

/-- `communication_module::execute`, with this message as the current one: the calls that are
made. Where there is no handler a warning names the type of the sender. -/
def execute (type : A → κ) (handlers : Handlers κ B) (m : Message A κ El) :
    Except Fault (List (Call El)) :=
  match handlers.lookup m.command with
  | some h => (h.invoke m).map fun c => [c]
  | none =>
    match m.sender.type type with
    | .error e => .error (.contacts e)
    | .ok _ => .ok []

end Invoke

/-! ### What the body of a message holds -/

/-- The type of what the body holds, if anything, for arguments of these types. -/
def encodedType : List (Ty B) → Option (Ty B)
  | [] => none
  | [t] => some t
  | t :: t' :: ts => some (.tuple (t :: t' :: ts))

/-- Arguments whose types `any` stores as they are. -/
def Storable (ts : List (Ty B)) : Prop := ∀ t, ts = [t] → t.Stored

theorem storable_cons_cons (t t' : Ty B) (ts : List (Ty B)) : Storable (t :: t' :: ts) := by
  intro s h
  cases h

/-- What the body holds for these arguments. -/
def encode : {ts : List (Ty B)} → Vals El ts → Val El .any
  | [], .nil => .noValue
  | [_], .cons arg .nil => .holding arg
  | _ :: _ :: _, args => .holding (.tuple args)

/-- The body holds the arguments, where `any` does not treat the only one on its own. -/
theorem body_makeMessagePtr [∀ b, Inhabited (El b)] {ts : List (Ty B)} (hs : Storable ts)
    (args : Vals El ts) (sender : Address A) (name : κ) :
    (makeMessagePtr sender name args).body = encode args := by
  match ts, args with
  | [], .nil => rfl
  | [t], .cons arg .nil => exact Val.toAny_of_stored (hs t rfl) arg
  | _ :: _ :: _, _ => rfl

theorem command_makeMessagePtr [∀ b, Inhabited (El b)] {ts : List (Ty B)} (args : Vals El ts)
    (sender : Address A) (name : κ) : (makeMessagePtr sender name args).command = name := by
  match ts, args with
  | [], .nil => rfl
  | [_], .cons _ .nil => rfl
  | _ :: _ :: _, _ => rfl

theorem clone_eq (m : Message A κ El) : m.clone = m := rfl

/-- However often a message is cloned, the clone is equal to it. -/
theorem clone_iterate (m : Message A κ El) (n : ℕ) : Message.clone^[n] m = m :=
  Function.iterate_fixed (clone_eq m) n

variable [DecidableEq B]

omit [DecidableEq B] in
theorem tlSlice_all (ts : List (Ty B)) : tlSlice ts 0 ts.length = ts := by
  simp [tlSlice]

theorem bodyAs_holding {m : Message A κ El} {t : Ty B} {x : Val El t} (h : m.body = .holding x) :
    m.bodyAs t = .ok x := by
  simp only [Message.bodyAs, h, Val.hasValue, if_pos, Val.anyCast_holding]

theorem bodyAs_of_ne {m : Message A κ El} {s t : Ty B} {x : Val El s} (h : m.body = .holding x)
    (hst : s ≠ t) : m.bodyAs t = .error .badAnyCast := by
  simp only [Message.bodyAs, h, Val.hasValue, if_pos, Val.anyCast_of_ne hst]

/-- A tuple is expanded into its components, in order. -/
theorem applyTuple_holding {m : Message A κ El} {ts : List (Ty B)} {args : Vals El ts}
    (h : m.body = .holding (.tuple args)) : applyTuple ts m = .ok ⟨ts, args⟩ := by
  simp only [applyTuple, bodyAs_holding h]
  exact congrArg Except.ok args.gets_finRange

theorem applyTuple_of_ne {m : Message A κ El} {s : Ty B} {ts : List (Ty B)} {x : Val El s}
    (h : m.body = .holding x) (hst : s ≠ .tuple ts) : applyTuple ts m = .error .badAnyCast := by
  simp only [applyTuple, bodyAs_of_ne h hst]

/-- The two transformers do the same. -/
theorem transformer_eq (params : List (Ty B)) (m : Message A κ El) :
    transformer params m = transformerForClass params m := by
  match params with
  | [] => rfl
  | [_] => rfl
  | t :: t' :: ts =>
    show applyTuple (tlSlice _ 0 _) m = applyTuple _ m
    rw [tlSlice_all]

theorem invoke_eq (h : Handler B) (m : Message A κ El) :
    h.invoke m = transformerForClass h.params m := by
  cases h with
  | function params => exact transformer_eq params m
  | member params => rfl

/-- The transformer takes out what was put in. -/
theorem transformerForClass_encode {m : Message A κ El} {ts : List (Ty B)} {args : Vals El ts}
    (h : m.body = encode args) : transformerForClass ts m = .ok ⟨ts, args⟩ := by
  match ts, args with
  | [], .nil => rfl
  | [_], .cons arg .nil =>
    rw [transformerForClass, bodyAs_holding h]
    rfl
  | _ :: _ :: _, _ => exact applyTuple_holding h

/-- **A handler with the parameters of the message is called with its arguments.** -/
theorem invoke_makeMessagePtr [∀ b, Inhabited (El b)] {h : Handler B} {ts : List (Ty B)}
    (hp : h.params = ts) (hs : Storable ts) (args : Vals El ts) (sender : Address A) (name : κ) :
    h.invoke (makeMessagePtr sender name args) = .ok ⟨ts, args⟩ := by
  rw [invoke_eq, hp]
  exact transformerForClass_encode (body_makeMessagePtr hs args sender name)

/-- A handler for another type than the one the body holds is not called: the cast throws. -/
theorem invoke_of_encodedType_ne {h : Handler B} {m : Message A κ El} {s : Ty B} {x : Val El s}
    (hb : m.body = .holding x) (hp : h.params ≠ []) (hne : encodedType h.params ≠ some s) :
    h.invoke m = .error .badAnyCast := by
  rw [invoke_eq]
  match hps : h.params with
  | [] => exact absurd hps hp
  | [t] =>
    have hst : s ≠ t := fun he => hne (by rw [hps, he]; rfl)
    rw [transformerForClass, bodyAs_of_ne hb hst]
    rfl
  | t :: t' :: ts =>
    have hst : s ≠ .tuple (t :: t' :: ts) := fun he => hne (by rw [hps, he]; rfl)
    exact applyTuple_of_ne hb hst

variable [DecidableEq κ]

omit [DecidableEq B] in
/-- What is inserted only where nothing is. -/
theorem lookup_insert_absent {V : Type*} (l : AList fun _ : κ => V) (name name' : κ) (v : V) :
    (if (l.lookup name).isSome then l else l.insert name v).lookup name' =
      if name' = name ∧ l.lookup name = none then some v else l.lookup name' := by
  cases hl : l.lookup name with
  | some g => simp
  | none =>
    rw [Option.isSome_none, if_neg Bool.false_ne_true]
    by_cases hn : name' = name
    · subst hn
      rw [AList.lookup_insert, if_pos ⟨rfl, rfl⟩]
    · rw [AList.lookup_insert_ne hn, if_neg fun h => hn h.1]

omit [DecidableEq B] in
/-- The handler that was registered first is the one that is found. -/
theorem lookup_on (handlers : Handlers κ B) (name name' : κ) (h : Handler B) :
    (handlers.on name h).lookup name' =
      if name' = name ∧ handlers.lookup name = none then some h else handlers.lookup name' :=
  lookup_insert_absent handlers name name' h

omit [DecidableEq B] in
/-- After any number of such insertions the first under each key is there. -/
theorem lookup_foldl_absent {V : Type*} (rs : List (κ × V)) (l : AList fun _ : κ => V) (name : κ) :
    (rs.foldl (fun l r => if (l.lookup r.1).isSome then l else l.insert r.1 r.2) l).lookup name =
      (l.lookup name).or ((rs.find? fun r => r.1 = name).map Prod.snd) := by
  induction rs generalizing l with
  | nil => exact Option.or_none.symm
  | cons r rs ih =>
    rw [List.foldl_cons, ih, lookup_insert_absent, List.find?_cons]
    by_cases hr : r.1 = name
    · subst hr
      rw [decide_eq_true rfl]
      cases hl : l.lookup r.1 with
      | none => rw [if_pos ⟨rfl, rfl⟩, Option.some_or, Option.none_or, Option.map_some]
      | some v => rw [if_neg fun h => Option.some_ne_none v h.2, Option.some_or, Option.some_or]
    · rw [decide_eq_false hr, if_neg fun h => hr h.1.symm]

/-- **The arguments of a message arrive**: whatever their number and types, however often the
message is cloned, and whichever of the two functions built it, a handler with parameters
of these types is called once, with these values in this order. -/
theorem execute_make_message [∀ b, Inhabited (El b)] (type : A → κ) {handlers : Handlers κ B}
    {name : κ} {h : Handler B} (hh : handlers.lookup name = some h) {ts : List (Ty B)}
    (hp : h.params = ts) (hany : .any ∉ ts) (hin : ∀ t, ts ≠ [.inPlaceType t]) (args : Vals El ts)
    (sender : Address A) (n : ℕ) :
    execute type handlers (Message.clone^[n] (makeMessage sender name args)) = .ok [⟨ts, args⟩] ∧
      execute type handlers (Message.clone^[n] (makeMessagePtr sender name args)) =
        .ok [⟨ts, args⟩] := by
  have hs : Storable ts := by
    rintro t rfl
    exact ⟨fun he => hany (he ▸ List.mem_singleton_self _), fun s he => hin s (he ▸ rfl)⟩
  have he : execute type handlers (makeMessagePtr sender name args) = .ok [⟨ts, args⟩] := by
    rw [execute, command_makeMessagePtr, hh]
    show (h.invoke _).map _ = _
    rw [invoke_makeMessagePtr hp hs]
    rfl
  rw [makeMessage_eq, clone_iterate]
  exact ⟨he, he⟩

/-- Two numbers, sent to a member function and to a function registered under another name. -/
theorem execute_make_message_two :
    ∃ args : Vals (fun _ : Unit => ℕ) [.base (), .base ()],
      execute (fun _ : ℕ => "worker")
          (Handlers.on (Handlers.on ∅ "add" (.member [.base (), .base ()])) "get" (.function []))
          (Message.clone^[3] (makeMessage (some 0) "add" args)) =
        .ok [⟨[.base (), .base ()], args⟩] :=
  ⟨.cons (.base 1) (.cons (.base 2) .nil), (execute_make_message (fun _ : ℕ => "worker")
    (h := .member [.base (), .base ()]) rfl rfl (by decide) nofun _ (some 0) 3).1⟩

/-- A tag `in_place_type_t<T>` as the only argument: the body holds a `T`, and the handler
for the tag is not called. -/
theorem in_place_tag_not_received :
    ∃ (handlers : Handlers String Unit) (h : Handler Unit) (ts : List (Ty Unit))
      (args : Vals (fun _ => ℕ) ts),
      handlers.lookup "tag" = some h ∧ h.params = ts ∧ .any ∉ ts ∧
      execute (fun _ : ℕ => "worker") handlers (makeMessage (some 0) "tag" args) =
        .error .badAnyCast :=
  ⟨Handlers.on ∅ "tag" (.function [.inPlaceType (.base ())]), _, [.inPlaceType (.base ())],
    .cons .inPlaceType .nil, rfl, rfl, by decide, rfl⟩

end ActorsFramework.Messaging
