/-
# What the history keeps

Whatever the user does, both stacks are timelines, the mark is on the entry that
was saved last and nowhere else (`Tracks`), and the current entry is the text of
its part of the document. For the schematic that is exact. The symbol is changed
without an entry when its ports are adjusted, on save, on undo and when it is
shown; what stays is everything but the port symbols (`frame`), and for the symbol
of an HDL file its text.

`history_faithful` is the result, for all sequences of commands. After any of them
edits can be taken back one by one, as far as the limit goes (`undo_edits`).
-/
import Mathlib.Data.List.Nodup
import Qucs.Schematic.History

namespace Qucs.Schematic

open Lib Lib.Timeline List Editor
open Option (map_eq_some_iff map_some some)

/-! ## What adjusting the ports leaves alone -/

section Frame

variable {O : Type} {hdl : Bool}

def isFrame (hdl : Bool) : Painting O → Bool
  | .portSym _ => false
  | .idText _ => !hdl
  | .other _ => true

/-- The paintings that no port has to do with. -/
def frame (hdl : Bool) (ps : List (Painting O)) : List (Painting O) := ps.filter (isFrame hdl)

theorem frame_map {f : Painting O → Painting O}
    (hf : ∀ p, isFrame hdl (f p) = isFrame hdl p ∧ (isFrame hdl p → f p = p))
    (ps : List (Painting O)) : frame hdl (ps.map f) = frame hdl ps := by
  induction ps with
  | nil => rfl
  | cons p ps ih =>
    have ih : (ps.map f).filter (isFrame hdl) = ps.filter (isFrame hdl) := ih
    rw [frame, frame, map_cons, filter_cons, filter_cons, (hf p).1, ih]
    split
    case isTrue hp => rw [(hf p).2 hp]
    case isFalse => rfl

theorem frame_deletePortName (ps : List (Painting O)) :
    frame hdl (ps.map deletePortName) = frame hdl ps := by
  refine frame_map (fun p => ?_) ps
  cases p <;> simp [deletePortName, isFrame]

theorem frame_setEntity (info : HdlInfo) (ps : List (Painting O)) :
    frame true (ps.map (setEntity info)) = frame true ps := by
  refine frame_map (fun p => ?_) ps
  cases p <;> simp [setEntity, isFrame]

theorem frame_nameMatching {number name : String} {ps ps' : List (Painting O)}
    (h : nameMatching number name ps = some ps') : frame hdl ps' = frame hdl ps := by
  have hcons {p : Painting O} {ps ps' : List (Painting O)} (h : frame hdl ps' = frame hdl ps) :
      frame hdl (p :: ps') = frame hdl (p :: ps) := by
    have h : ps'.filter (isFrame hdl) = ps.filter (isFrame hdl) := h
    rw [frame, frame, filter_cons, filter_cons, h]
  induction ps generalizing ps' with
  | nil => cases h
  | cons p ps ih =>
    cases p with
    | portSym p =>
      rw [nameMatching] at h
      split at h
      · cases h
        rfl
      · obtain ⟨ps', hps', rfl⟩ := map_eq_some_iff.mp h
        exact hcons (ih hps')
    | idText t =>
      obtain ⟨ps', hps', rfl⟩ := map_eq_some_iff.mp h
      exact hcons (ih hps')
    | other o =>
      obtain ⟨ps', hps', rfl⟩ := map_eq_some_iff.mp h
      exact hcons (ih hps')

theorem frame_adjustPort (x : ℤ) (s : List (Painting O) × ℤ) (port : String × String) :
    frame hdl (adjustPort x s port).1 = frame hdl s.1 := by
  rw [adjustPort]
  split
  case h_1 ps h => exact frame_nameMatching h
  case h_2 => simp [frame, isFrame]

theorem frame_adjustPorts (place : ℤ × ℤ) (ports : List (String × String))
    (ps : List (Painting O)) : frame hdl (adjustPorts place ports ps) = frame hdl ps := by
  have hfold (s : List (Painting O) × ℤ) :
      frame hdl (ports.foldl (adjustPort place.1) s).1 = frame hdl s.1 := by
    induction ports generalizing s with
    | nil => rfl
    | cons port ports ih => rw [foldl_cons, ih, frame_adjustPort]
  have hfilter (ps : List (Painting O)) : frame hdl (ps.filter isAccounted) = frame hdl ps := by
    rw [frame, filter_filter]
    refine filter_congr fun p _ => ?_
    cases p <;> simp [isFrame, isAccounted]
  rw [adjustPorts, hfilter, hfold]

theorem frame_adjustPortNumbers {D T : Type} (E : Editor D O T) (s : State D O T) :
    frame E.isHdl (E.adjustPortNumbers s).1 = frame E.isHdl s.symbol := by
  rw [adjustPortNumbers]
  split
  case isTrue h => rw [h, frame_adjustPorts, frame_setEntity, frame_deletePortName]
  case isFalse => rw [frame_adjustPorts, frame_deletePortName]

end Frame

/-! ## One stack -/

section Stacks

variable {X T : Type}

/-- A stack is a timeline of texts that were written, and its mark is on the entry
that was saved. -/
structure Tracks (f : Serializer X T) (stack : Stack (Entry T)) (saved : Option ℕ) (heap : ℕ)
    (t : Timeline (Entry T)) : Prop where
  stack_eq : stack = t.toStack
  written : ∀ e ∈ t.toList, ∃ x, e.text = f.create x
  marked : ∀ e ∈ t.toList, e.mark = 'i' ↔ some e.address = saved
  distinct : (t.toList.map Entry.address).Nodup
  old : ∀ e ∈ t.toList, e.address < heap
  saved_old : ∀ a ∈ saved, a < heap

variable {f : Serializer X T} {stack : Stack (Entry T)} {saved : Option ℕ} {heap : ℕ}
  {t t' : Timeline (Entry T)}

namespace Tracks

theorem single {a heap : ℕ} (ha : a < heap) (op : Char) (x : X) :
    ∃ t, Tracks f ⟨[⟨a, op, 'i', f.create x⟩], 0⟩ (some a) heap t ∧
      t.present = ⟨a, op, 'i', f.create x⟩ := by
  refine ⟨⟨[], ⟨a, op, 'i', f.create x⟩, []⟩, ⟨rfl, ?_, ?_, by simp [toList], ?_, ?_⟩, rfl⟩
  · simp [toList]
  · simp [toList]
  · simpa [toList] using ha
  · rintro b ⟨⟩
    exact ha

variable (h : Tracks f stack saved heap t)
include h

theorem current : stack.current = some t.present := by rw [h.stack_eq, current_toStack]

/-- A text that is loaded is written again as it was. -/
theorem create_rebuild : f.create (f.rebuild t.present.text) = t.present.text := by
  obtain ⟨x, hx⟩ := h.written _ t.present_mem
  rw [hx, f.rebuild_create]

theorem mark_iff :
    stack.current.map Entry.mark = some 'i' ↔ stack.current.map Entry.address = saved := by
  rw [h.current, map_some, map_some, Option.some_inj]
  exact h.marked _ t.present_mem

theorem address_ne : some heap ≠ saved := by
  rintro rfl
  exact absurd (h.saved_old heap rfl) (lt_irrefl _)

theorem mono {heap' : ℕ} (hle : heap ≤ heap') :
    Tracks f stack saved heap' t where
  stack_eq := h.stack_eq
  written := h.written
  marked := h.marked
  distinct := h.distinct
  old e he := (h.old e he).trans_le hle
  saved_old a ha := (h.saved_old a ha).trans_le hle

theorem move (ht : t'.toList = t.toList) :
    Tracks f t'.toStack saved heap t' where
  stack_eq := rfl
  written := ht ▸ h.written
  marked := ht ▸ h.marked
  distinct := ht ▸ h.distinct
  old := ht ▸ h.old
  saved_old := h.saved_old

theorem back (hstart : stack.atStart = false) :
    ∃ t', Tracks f stack.back saved heap t' ∧ stack.back.forward = stack ∧
      stack.back.atEnd = false := by
  rw [h.stack_eq] at hstart ⊢
  obtain ⟨t', hback, hlist, hforward, hend⟩ := exists_back hstart
  rw [hback]
  exact ⟨t', h.move hlist, hforward, hend⟩

theorem forward (hend : stack.atEnd = false) :
    ∃ t', Tracks f stack.forward saved heap t' ∧ stack.forward.back = stack ∧
      stack.forward.atStart = false := by
  rw [h.stack_eq] at hend ⊢
  obtain ⟨t', hforward, hlist, hback, hstart⟩ := exists_forward hend
  rw [hforward]
  exact ⟨t', h.move hlist, hback, hstart⟩

theorem extend {op : Char} {x : X}
    (hsub : t'.toList.Sublist (t.toList ++ [⟨heap, op, ' ', f.create x⟩])) :
    Tracks f t'.toStack saved (heap + 1) t' := by
  have hmem {P : Entry T → Prop} (hold : ∀ e ∈ t.toList, P e)
      (hnew : P ⟨heap, op, ' ', f.create x⟩) : ∀ e ∈ t'.toList, P e := by
    intro e he
    rcases mem_append.mp (hsub.subset he) with he | he
    · exact hold e he
    · exact mem_singleton.mp he ▸ hnew
  constructor
  case stack_eq => rfl
  case written => exact hmem h.written ⟨x, rfl⟩
  case marked => exact hmem h.marked (iff_of_false (by simp) h.address_ne)
  case distinct =>
    refine (hsub.map Entry.address).nodup ?_
    rw [map_append, nodup_append]
    refine ⟨h.distinct, by simp, ?_⟩
    rintro a ha b hb rfl
    obtain ⟨e, he, rfl⟩ := mem_map.mp ha
    exact (h.old e he).ne (mem_singleton.mp hb)
  case old => exact hmem (fun e he => (h.old e he).trans (Nat.lt_succ_self _)) (Nat.lt_succ_self _)
  case saved_old => exact fun a ha => (h.saved_old a ha).trans (Nat.lt_succ_self _)

theorem push {n : ℕ} (hn : 1 ≤ n) (op : Char) (x : X) :
    ∃ t', Tracks f ((stack.truncate.append ⟨heap, op, ' ', f.create x⟩).limit n) saved (heap + 1)
      t' ∧ t'.present = ⟨heap, op, ' ', f.create x⟩ := by
  refine ⟨(t.push ⟨heap, op, ' ', f.create x⟩).forget n, ?_, rfl⟩
  rw [h.stack_eq, append_toStack, limit_toStack hn (push_future _ _)]
  exact h.extend ((forget_sublist _ _).trans (push_sublist _ _))

theorem replace {n : ℕ} (hn : 1 ≤ n) (op : Char) (x : X) :
    ∃ t', Tracks f ((stack.truncate.popBack.append ⟨heap, op, ' ', f.create x⟩).limit n) saved
      (heap + 1) t' ∧ t'.present = ⟨heap, op, ' ', f.create x⟩ := by
  refine ⟨(t.replace ⟨heap, op, ' ', f.create x⟩).forget n, ?_, rfl⟩
  rw [h.stack_eq, popBack_toStack, limit_toStack hn (replace_future _ _)]
  exact h.extend ((forget_sublist _ _).trans (replace_sublist _ _))

theorem mark :
    ∃ t', Tracks f (Editor.markCurrent stack) (some t.present.address) heap t' ∧
      t'.present.text = t.present.text ∧ t'.present.address = t.present.address := by
  obtain ⟨past, present, future⟩ := t
  let t' : Timeline (Entry T) := ⟨past.map fun e => { e with mark := ' ' },
    { present with mark := 'i' }, future.map fun e => { e with mark := ' ' }⟩
  have hother : ∀ e ∈ past ++ future, e.address ≠ present.address := by
    have hdistinct := h.distinct
    rw [toList, map_append, map_cons, nodup_middle, ← map_append] at hdistinct
    intro e he heq
    exact (nodup_cons.mp hdistinct).1 (heq ▸ mem_map_of_mem he)
  have hmem {P : ℕ → T → Prop}
      (hold : ∀ e ∈ (Timeline.mk past present future).toList, P e.address e.text) :
      ∀ e ∈ t'.toList, P e.address e.text := by
    simpa [t', toList, or_imp, forall_and] using hold
  have hwritten := hmem (P := fun _ text => ∃ x, text = f.create x) h.written
  have hold := hmem (P := fun a _ => a < heap) h.old
  refine ⟨t', ⟨?_, hwritten, ?_, ?_, hold, ?_⟩, rfl, rfl⟩
  · rw [markCurrent, h.stack_eq, mapCurrent_toStack]
    rfl
  · have hpresent : ∀ e ∈ past ++ future, (' ' = 'i' ↔ some e.address = some present.address) :=
      fun e he => iff_of_false (by decide) fun heq => hother e he (some.inj heq)
    rw [forall_mem_append] at hpresent
    simp only [t', toList, forall_mem_append, forall_mem_cons, forall_mem_map]
    exact ⟨hpresent.1, by simp, hpresent.2⟩
  · simpa [t', toList, Function.comp_def] using h.distinct
  · rintro a ⟨⟩
    exact h.old present (present_mem _)

end Tracks

end Stacks

/-! ## The document -/

variable {D O T : Type} (E : Editor D O T)

def ActionFaithful (s : State D O T) : Prop :=
  ∃ t, Tracks E.docs s.undoAction s.lastSaved.1 s.heap t ∧ t.present.text = E.docs.create s.doc

/-- The stack of the symbol belongs to it, up to its ports. -/
def SymbolFaithful (s : State D O T) : Prop :=
  ∃ t, Tracks E.symbols s.undoSymbol s.lastSaved.2 s.heap t ∧
    frame E.isHdl (E.symbols.rebuild t.present.text) = frame E.isHdl s.symbol

/-- What holds of the document whatever was done to it. -/
structure Faithful (s : State D O T) : Prop where
  action : ActionFaithful E s
  symbol : SymbolFaithful E s
  unchanged : s.docChanged = false ↔ Editor.currentAddresses s = s.lastSaved ∧ s.flagged = false
  limit : 1 ≤ s.maxUndo

variable {E} {s : State D O T}

theorem isUnchanged_iff (haction : ActionFaithful E s) (hsymbol : SymbolFaithful E s) :
    Editor.isUnchanged s ↔ Editor.currentAddresses s = s.lastSaved := by
  obtain ⟨t, ht, -⟩ := haction
  obtain ⟨u, hu, -⟩ := hsymbol
  have hempty : s.undoSymbol.entries.isEmpty = false := by
    rw [hu.stack_eq]
    simp [toStack, toList]
  rw [isUnchanged, hempty, currentAddresses, Prod.ext_iff, ← ht.mark_iff, ← hu.mark_iff]
  simp

/-- **An edit.**  The part that is edited need not be the text of its entry
before. -/
theorem Faithful.edited {t u : Timeline (Entry T)}
    (ht : Tracks E.docs s.undoAction s.lastSaved.1 s.heap t)
    (hu : Tracks E.symbols s.undoSymbol s.lastSaved.2 s.heap u)
    (haction : s.symbolMode → t.present.text = E.docs.create s.doc)
    (hsymbol : s.symbolMode = false →
      frame E.isHdl (E.symbols.rebuild u.present.text) = frame E.isHdl s.symbol)
    (hlimit : 1 ≤ s.maxUndo) (op : Char) : Faithful E (E.edited op s) := by
  cases hmode : s.symbolMode with
  | true =>
    obtain ⟨u', hu', hpresent⟩ := hu.push hlimit op s.symbol
    have hstate : E.edited op s = { s with
        undoSymbol := (s.undoSymbol.truncate.append
          ⟨s.heap, op, ' ', E.symbols.create s.symbol⟩).limit s.maxUndo
        heap := s.heap + 1, docChanged := true, flagged := false } := by
      simp [Editor.edited, Editor.setChanged, Editor.pushSymbol, hmode]
    rw [hstate]
    refine ⟨⟨t, ht.mono (Nat.le_succ _), haction hmode⟩, ⟨u', hu', ?_⟩, ?_, hlimit⟩
    · rw [hpresent, E.symbols.rebuild_create]
    · refine iff_of_false (by simp) fun h => hu.address_ne ?_
      rw [← congrArg Prod.snd h.1, Editor.currentAddresses, hu'.current, hpresent]
      rfl
  | false =>
    obtain ⟨stack, hstack, t', ht', hpresent⟩ : ∃ stack,
        (E.pushAction op { s with docChanged := true }).undoAction = stack ∧
          ∃ t', Tracks E.docs stack s.lastSaved.1 (s.heap + 1) t' ∧
            t'.present = ⟨s.heap, op, ' ', E.docs.create s.doc⟩ := by
      refine ⟨_, rfl, ?_⟩
      rw [Editor.pushAction]
      split
      · exact ht.replace hlimit op _
      · exact ht.push hlimit op _
    have hstate : E.edited op s = { s with
        undoAction := stack, heap := s.heap + 1, docChanged := true, flagged := false } := by
      rw [← hstack]
      simp [Editor.edited, Editor.setChanged, Editor.pushAction, hmode]
    rw [hstate]
    refine ⟨⟨t', ht', ?_⟩, ⟨u, hu.mono (Nat.le_succ _), hsymbol hmode⟩, ?_, hlimit⟩
    · rw [hpresent]
    · refine iff_of_false (by simp) fun h => ht.address_ne ?_
      rw [← congrArg Prod.fst h.1, Editor.currentAddresses, ht'.current, hpresent]
      rfl

theorem Faithful.flagChanged (haction : ActionFaithful E s) (hsymbol : SymbolFaithful E s)
    (hlimit : 1 ≤ s.maxUndo) : Faithful E (E.flagChanged s) := by
  have hstate : E.flagChanged s =
      { s with docChanged := !isUnchanged s, flagged := false } := by
    simp [Editor.flagChanged, Editor.setChanged]
  rw [hstate]
  refine ⟨haction, hsymbol, ?_, hlimit⟩
  rw [Bool.not_eq_false', isUnchanged_iff haction hsymbol]
  exact (and_iff_left rfl).symm

variable {stack : Stack (Entry T)} {t : Timeline (Entry T)}

theorem Faithful.start {a b : ℕ} {op : Char} (ha : a < s.heap) (hb : b < s.heap)
    (haction : s.undoAction = ⟨[⟨a, op, 'i', E.docs.create s.doc⟩], 0⟩)
    (hsymbol : s.undoSymbol = ⟨[⟨b, op, 'i', E.symbols.create s.symbol⟩], 0⟩)
    (hsaved : s.lastSaved = (some a, some b)) (hchanged : s.docChanged = false)
    (hflagged : s.flagged = false) (hlimit : 1 ≤ s.maxUndo) : Faithful E s := by
  obtain ⟨t, ht, htext⟩ := Tracks.single ha op s.doc
  obtain ⟨u, hu, hutext⟩ := Tracks.single hb op s.symbol
  refine ⟨⟨t, ?_, by rw [htext]⟩, ⟨u, ?_, ?_⟩, iff_of_true hchanged ⟨?_, hflagged⟩, hlimit⟩
  · rwa [haction, hsaved]
  · rwa [hsymbol, hsaved]
  · rw [hutext, E.symbols.rebuild_create]
  · rw [hsaved, currentAddresses, haction, hsymbol]
    rfl

section

variable (h : Faithful E s)
include h

theorem Faithful.goToAction (ht : Tracks E.docs stack s.lastSaved.1 s.heap t) :
    Faithful E (E.goToAction stack s) := by
  have hstate : E.rebuild { s with undoAction := stack } =
      { s with undoAction := stack, doc := E.docs.rebuild t.present.text } := by
    rw [rebuild]
    simp only [ht.current]
  rw [Editor.goToAction, hstate]
  exact .flagChanged ⟨t, ht, ht.create_rebuild.symm⟩ h.symbol h.limit

theorem Faithful.goToSymbol
    (ht : Tracks E.symbols stack s.lastSaved.2 s.heap t) :
    Faithful E (E.goToSymbol stack s) := by
  let s' : State D O T :=
    { s with undoSymbol := stack, symbol := E.symbols.rebuild t.present.text }
  have hstate : E.rebuildSymbol { s with undoSymbol := stack } =
      { s' with symbol := (E.adjustPortNumbers s').1 } := by
    rw [rebuildSymbol]
    simp only [ht.current]
    rfl
  rw [Editor.goToSymbol, hstate]
  exact .flagChanged h.action ⟨t, ht, (frame_adjustPortNumbers E s').symm⟩ h.limit

theorem Faithful.undo : Faithful E (E.undo s) := by
  obtain ⟨t, ht, -⟩ := h.action
  obtain ⟨u, hu, -⟩ := h.symbol
  rw [Editor.undo]
  split_ifs with hmode hstart hstart
  · exact h
  · obtain ⟨u', hu', -⟩ := hu.back (Bool.not_eq_true _ ▸ hstart)
    exact h.goToSymbol hu'
  · exact h
  · obtain ⟨t', ht', -⟩ := ht.back (Bool.not_eq_true _ ▸ hstart)
    exact h.goToAction ht'

theorem Faithful.redo : Faithful E (E.redo s) := by
  obtain ⟨t, ht, -⟩ := h.action
  obtain ⟨u, hu, -⟩ := h.symbol
  rw [Editor.redo]
  split_ifs with hmode hend hend
  · exact h
  · obtain ⟨u', hu', -⟩ := hu.forward (Bool.not_eq_true _ ▸ hend)
    exact h.goToSymbol hu'
  · exact h
  · obtain ⟨t', ht', -⟩ := ht.forward (Bool.not_eq_true _ ▸ hend)
    exact h.goToAction ht'

theorem Faithful.adjust :
    Faithful E { s with symbol := (E.adjustPortNumbers s).1 } := by
  obtain ⟨u, hu, hframe⟩ := h.symbol
  exact ⟨h.action, ⟨u, hu, hframe.trans (frame_adjustPortNumbers E s).symm⟩, h.unchanged, h.limit⟩

theorem Faithful.save (written : Bool) : Faithful E (E.save written s) := by
  have hadjust := h.adjust
  cases written with
  | false => exact hadjust
  | true =>
    obtain ⟨t, ht, htext⟩ := hadjust.action
    obtain ⟨u, hu, hframe⟩ := hadjust.symbol
    obtain ⟨t', ht', htext', haddress⟩ := ht.mark
    obtain ⟨u', hu', hutext', huaddress⟩ := hu.mark
    have hsaved : currentAddresses s =
        (some t.present.address, some u.present.address) := by
      rw [currentAddresses, ht.current, hu.current]
      rfl
    have hstate : E.save true s = { s with
        symbol := (E.adjustPortNumbers s).1
        docChanged := false
        undoAction := markCurrent s.undoAction
        undoSymbol := markCurrent s.undoSymbol
        lastSaved := (some t.present.address, some u.present.address)
        flagged := false } := by
      rw [← hsaved]
      rfl
    rw [hstate]
    refine ⟨⟨t', ht', htext'.trans htext⟩, ⟨u', hu', ?_⟩, ?_, h.limit⟩
    · rw [hutext']
      exact hframe
    · refine iff_of_true rfl ⟨?_, rfl⟩
      rw [currentAddresses, ht'.current, hu'.current, map_some, map_some, haddress, huaddress]

theorem Faithful.switchMode : Faithful E (E.switchMode s) := by
  have hswitched : Faithful E { s with symbolMode := !s.symbolMode } :=
    ⟨h.action, h.symbol, h.unchanged, h.limit⟩
  cases hmode : s.symbolMode with
  | true =>
    have hstate : E.switchMode s = { s with symbolMode := !s.symbolMode } := by
      simp [Editor.switchMode, hmode]
    rwa [hstate]
  | false =>
    have hadjust := hswitched.adjust
    rw [Editor.switchMode]
    simp only [hmode, Bool.not_false, if_true, Editor.createSubcircuitSymbol] at hadjust ⊢
    split_ifs with hcount hcreated hcreated
    · cases hcreated
    · exact hadjust
    · obtain ⟨t, ht, htext⟩ := hswitched.action
      obtain ⟨u, hu, -⟩ := hswitched.symbol
      exact .edited (s := { s with symbolMode := true, symbol := _ }) ht hu (fun _ => htext)
        (fun h => nomatch h) h.limit '*'
    · exact absurd rfl hcreated

/-- **Every command keeps the history faithful.** -/
theorem Faithful.step (c : Command D O)
    (hc : ∀ n, c = .limit n → 1 ≤ n) : Faithful E (E.step s c) := by
  cases c with
  | edit op doc symbol =>
    obtain ⟨t, ht, htext⟩ := h.action
    obtain ⟨u, hu, hframe⟩ := h.symbol
    rw [Editor.step]
    split
    case isTrue hmode =>
      exact .edited (s := { s with symbol := symbol }) ht hu (fun _ => htext)
        (fun hmode' => nomatch hmode.symm.trans hmode') h.limit op
    case isFalse hmode =>
      exact .edited (s := { s with doc := doc }) ht hu (fun hmode' => absurd hmode' hmode)
        (fun _ => hframe) h.limit op
  | undo => exact h.undo
  | redo => exact h.redo
  | save written => exact h.save written
  | switchMode => exact h.switchMode
  | load doc symbol =>
    exact .start (Nat.lt_add_of_pos_right Nat.zero_lt_two) (Nat.lt_succ_self _) rfl rfl rfl rfl
      rfl h.limit
  | settings =>
    exact ⟨h.action, h.symbol, iff_of_false nofun fun hflagged => (nomatch hflagged.2), h.limit⟩
  | hdl info => exact ⟨h.action, h.symbol, h.unchanged, h.limit⟩
  | limit n => exact ⟨h.action, h.symbol, h.unchanged, hc n rfl⟩

theorem Faithful.run {cs : List (Command D O)} (hcs : Editor.Limited cs) :
    Faithful E (E.run s cs) := by
  induction cs generalizing s with
  | nil => exact h
  | cons c cs ih =>
    refine ih (h.step c fun n hn => hcs n ?_) fun n hn => hcs n (mem_cons_of_mem _ hn)
    rw [hn]
    exact mem_cons_self

end

theorem faithful_fresh {maxUndo : ℕ} (hmax : 1 ≤ maxUndo) (hdl : HdlInfo) :
    Faithful E (E.fresh hdl maxUndo) :=
  .start Nat.zero_lt_two Nat.one_lt_two rfl rfl rfl rfl rfl hmax

/-! ## Undo and redo -/

/-- There is an entry to go back to in the mode that is shown. -/
def canUndo (s : State D O T) : Prop :=
  (if s.symbolMode then s.undoSymbol.atStart else s.undoAction.atStart) = false

def canRedo (s : State D O T) : Prop :=
  (if s.symbolMode then s.undoSymbol.atEnd else s.undoAction.atEnd) = false

/-- The document is as it was, its symbol up to the ports if it is shown. -/
structure Restored (hdl : Bool) (s s' : State D O T) : Prop where
  undoAction : s'.undoAction = s.undoAction
  undoSymbol : s'.undoSymbol = s.undoSymbol
  doc : s'.doc = s.doc
  frame : frame hdl s'.symbol = frame hdl s.symbol
  symbol : s.symbolMode = false → s'.symbol = s.symbol

variable {e : Entry T}

theorem goToAction_spec (he : stack.current = some e)
    (s : State D O T) : (E.goToAction stack s).undoAction = stack ∧
      (E.goToAction stack s).undoSymbol = s.undoSymbol ∧
      (E.goToAction stack s).symbolMode = s.symbolMode ∧
      (E.goToAction stack s).doc = E.docs.rebuild e.text ∧
      (E.goToAction stack s).symbol = s.symbol := by
  rw [goToAction, rebuild]
  simp only [he]
  exact ⟨rfl, rfl, rfl, rfl, rfl⟩

theorem goToSymbol_spec (he : stack.current = some e)
    (s : State D O T) : (E.goToSymbol stack s).undoAction = s.undoAction ∧
      (E.goToSymbol stack s).undoSymbol = stack ∧
      (E.goToSymbol stack s).symbolMode = s.symbolMode ∧
      (E.goToSymbol stack s).doc = s.doc ∧
      frame E.isHdl (E.goToSymbol stack s).symbol = frame E.isHdl (E.symbols.rebuild e.text) := by
  rw [goToSymbol, rebuildSymbol]
  simp only [he]
  exact ⟨rfl, rfl, rfl, rfl, frame_adjustPortNumbers E _⟩

theorem Faithful.restored_action (h : Faithful E s) (he : stack.current = some e) :
    Restored E.isHdl s (E.goToAction s.undoAction (E.goToAction stack s)) := by
  obtain ⟨t, ht, htext⟩ := h.action
  obtain ⟨-, hsymbols, -, -, hsymbol⟩ := goToAction_spec he s
  obtain ⟨haction, hsymbols', -, hdoc, hsymbol'⟩ :=
    goToAction_spec ht.current (E.goToAction stack s)
  constructor
  case undoAction => exact haction
  case undoSymbol => exact hsymbols'.trans hsymbols
  case doc => rw [hdoc, htext, E.docs.rebuild_create]
  case frame => rw [hsymbol', hsymbol]
  case symbol => exact fun _ => hsymbol'.trans hsymbol

theorem Faithful.restored_symbol (h : Faithful E s) (hmode : s.symbolMode)
    (he : stack.current = some e) :
    Restored E.isHdl s (E.goToSymbol s.undoSymbol (E.goToSymbol stack s)) := by
  obtain ⟨u, hu, hframe⟩ := h.symbol
  obtain ⟨hactions, -, -, hdoc, -⟩ := goToSymbol_spec he s
  obtain ⟨hactions', hsymbol, -, hdoc', hframe'⟩ :=
    goToSymbol_spec hu.current (E.goToSymbol stack s)
  constructor
  case undoAction => exact hactions'.trans hactions
  case undoSymbol => exact hsymbol
  case doc => exact hdoc'.trans hdoc
  case frame => exact hframe'.trans hframe
  case symbol => exact fun hmode' => nomatch hmode.symm.trans hmode'

theorem undo_symbol (hmode : s.symbolMode) (hstart : s.undoSymbol.atStart = false) :
    E.undo s = E.goToSymbol s.undoSymbol.back s := by
  simp [undo, hmode, hstart]

theorem undo_action (hmode : s.symbolMode = false) (hstart : s.undoAction.atStart = false) :
    E.undo s = E.goToAction s.undoAction.back s := by
  simp [undo, hmode, hstart]

theorem redo_symbol (hmode : s.symbolMode) (hend : s.undoSymbol.atEnd = false) :
    E.redo s = E.goToSymbol s.undoSymbol.forward s := by
  simp [redo, hmode, hend]

theorem redo_action (hmode : s.symbolMode = false) (hend : s.undoAction.atEnd = false) :
    E.redo s = E.goToAction s.undoAction.forward s := by
  simp [redo, hmode, hend]

/-- **A redo after an undo.** -/
theorem Faithful.redo_undo (h : Faithful E s) (hundo : canUndo s) :
    Restored E.isHdl s (E.redo (E.undo s)) := by
  cases hmode : s.symbolMode with
  | true =>
    obtain ⟨u, hu, -⟩ := h.symbol
    have hstart : s.undoSymbol.atStart = false := by simpa [canUndo, hmode] using hundo
    obtain ⟨u', hu', hforward, hend⟩ := hu.back hstart
    obtain ⟨-, hstack, hmode', -⟩ := goToSymbol_spec hu'.current s
    rw [undo_symbol hmode hstart, redo_symbol (hmode'.trans hmode) (by rwa [hstack]), hstack,
      hforward]
    exact h.restored_symbol hmode hu'.current
  | false =>
    obtain ⟨t, ht, -⟩ := h.action
    have hstart : s.undoAction.atStart = false := by simpa [canUndo, hmode] using hundo
    obtain ⟨t', ht', hforward, hend⟩ := ht.back hstart
    obtain ⟨hstack, -, hmode', -⟩ := goToAction_spec ht'.current s
    rw [undo_action hmode hstart, redo_action (hmode'.trans hmode) (by rwa [hstack]), hstack,
      hforward]
    exact h.restored_action ht'.current

/-- **An undo after a redo.** -/
theorem Faithful.undo_redo (h : Faithful E s) (hredo : canRedo s) :
    Restored E.isHdl s (E.undo (E.redo s)) := by
  cases hmode : s.symbolMode with
  | true =>
    obtain ⟨u, hu, -⟩ := h.symbol
    have hend : s.undoSymbol.atEnd = false := by simpa [canRedo, hmode] using hredo
    obtain ⟨u', hu', hback, hstart⟩ := hu.forward hend
    obtain ⟨-, hstack, hmode', -⟩ := goToSymbol_spec hu'.current s
    rw [redo_symbol hmode hend, undo_symbol (hmode'.trans hmode) (by rwa [hstack]), hstack, hback]
    exact h.restored_symbol hmode hu'.current
  | false =>
    obtain ⟨t, ht, -⟩ := h.action
    have hend : s.undoAction.atEnd = false := by simpa [canRedo, hmode] using hredo
    obtain ⟨t', ht', hback, hstart⟩ := ht.forward hend
    obtain ⟨hstack, -, hmode', -⟩ := goToAction_spec ht'.current s
    rw [redo_action hmode hend, undo_action (hmode'.trans hmode) (by rwa [hstack]), hstack, hback]
    exact h.restored_action ht'.current

/-! ## The result -/

def Within (stack : Stack (Entry T)) : Prop := 0 ≤ stack.idx ∧ stack.idx < stack.entries.length

/-- **The history is faithful**, for every limit and whatever the user does. The
indices are within the stacks; the current entry is the text of the schematic, and
of the symbol up to its ports; redo after undo and undo after redo restore the
document; and it is flagged unchanged iff the current entries are those
that were saved last and no change was flagged without an entry. -/
theorem history_faithful (E : Editor D O T) (hdl : HdlInfo) {maxUndo : ℕ} (hmax : 1 ≤ maxUndo)
    (cs : List (Command D O)) (hcs : Editor.Limited cs) :
    let s := E.run (E.fresh hdl maxUndo) cs
    (Within s.undoAction ∧ Within s.undoSymbol) ∧
      s.undoAction.current.map Entry.text = some (E.docs.create s.doc) ∧
      (s.undoSymbol.current.map fun e => frame E.isHdl (E.symbols.rebuild e.text)) =
        some (frame E.isHdl s.symbol) ∧
      (canUndo s → Restored E.isHdl s (E.redo (E.undo s))) ∧
      (canRedo s → Restored E.isHdl s (E.undo (E.redo s))) ∧
      (s.docChanged = false ↔ currentAddresses s = s.lastSaved ∧ s.flagged = false) := by
  intro s
  have h : Faithful E s := (faithful_fresh hmax hdl).run hcs
  obtain ⟨t, ht, htext⟩ := h.action
  obtain ⟨u, hu, hframe⟩ := h.symbol
  refine ⟨⟨?_, ?_⟩, ?_, ?_, h.redo_undo, h.undo_redo, h.unchanged⟩
  · rw [ht.stack_eq]
    exact t.toStack_idx
  · rw [hu.stack_eq]
    exact u.toStack_idx
  · rw [ht.current, map_some, htext]
  · rw [hu.current, map_some, hframe]

def portEditor : Editor (List (String × String)) Unit
    (List (String × String) ⊕ List (Painting Unit)) where
  docs := ⟨.inl, Sum.elim id fun _ => [], fun _ => rfl⟩
  symbols := ⟨.inr, Sum.elim (fun _ => []) id, fun _ => rfl⟩
  ports := id
  place _ := (40, 20)
  draw _ ps := ps
  isHdl := false
  empty := []

def portCommands : List (Command (List (String × String)) Unit) :=
  [.edit '*' [("1", "P1")] [], .save true]

theorem history_faithful_ports :
    let s := portEditor.run (portEditor.fresh ⟨[], "", []⟩ 1) portCommands
    s.docChanged = false ↔ currentAddresses s = s.lastSaved ∧ s.flagged = false :=
  (history_faithful portEditor ⟨[], "", []⟩ le_rfl portCommands
    (by simp [Editor.Limited, portCommands])).2.2.2.2.2

/-- Saving adds the port to the symbol without an entry; and a change to the
settings is flagged although the current entries are those that were saved. -/
theorem history_symbol_ports :
    (let s := portEditor.run (portEditor.fresh ⟨[], "", []⟩ 20) portCommands
     s.undoSymbol.current.map Entry.text ≠ some (portEditor.symbols.create s.symbol)) ∧
    (let s := portEditor.run (portEditor.fresh ⟨[], "", []⟩ 20) [.settings]
     s.docChanged ∧ Editor.currentAddresses s = s.lastSaved) := by
  decide

/-! ## Edits and as many undos -/

/-- The schematic is shown, and `e` is the entry so many steps ago. -/
def Ago (s : State D O T) (n k : ℕ) (e : Entry T) : Prop :=
  s.symbolMode = false ∧ s.maxUndo = n ∧
    ∃ t : Timeline (Entry T), s.undoAction = t.toStack ∧ t.ago k = some e

variable {n k : ℕ}

theorem Ago.edit (h : Ago s n k e) (hk : k + 1 < n) {op : Char} (hop : op ≠ 'm') (doc : D)
    (symbol : List (Painting O)) : Ago (E.step s (.edit op doc symbol)) n (k + 1) e := by
  obtain ⟨hmode, rfl, t, ht, hago⟩ := h
  have hstep : E.step s (.edit op doc symbol) = { s with
      doc := doc, docChanged := true, flagged := false, heap := s.heap + 1
      undoAction := (s.undoAction.truncate.append
        ⟨s.heap, op, ' ', E.docs.create doc⟩).limit s.maxUndo } := by
    simp [step, edited, setChanged, pushAction, hmode, hop]
  rw [hstep]
  refine ⟨hmode, rfl, (t.push ⟨s.heap, op, ' ', E.docs.create doc⟩).forget s.maxUndo, ?_,
    ago_push _ hago hk⟩
  dsimp only
  rw [ht, append_toStack, limit_toStack (by omega) (push_future _ _)]

theorem Ago.undo (h : Ago s n (k + 1) e) : Ago (E.undo s) (E.undo s).maxUndo k e ∧
    (k = 0 → (E.undo s).doc = E.docs.rebuild e.text) := by
  obtain ⟨hmode, -, t, ht, hago⟩ := h
  obtain ⟨hstart, t', hback, hago'⟩ := exists_back_ago hago
  rw [← ht] at hstart hback
  have hcurrent : s.undoAction.back.current = some t'.present := by rw [hback, current_toStack]
  obtain ⟨hstack, -, hmode', hdoc, -⟩ := goToAction_spec (E := E) hcurrent s
  rw [undo_action hmode hstart]
  refine ⟨⟨hmode'.trans hmode, rfl, t', hstack.trans hback, hago'⟩, ?_⟩
  rintro rfl
  rw [hdoc, some.inj hago']

theorem Ago.edits {edits : List (Char × D × List (Painting O))} (hops : ∀ c ∈ edits, c.1 ≠ 'm')
    (h : Ago s n k e) (hk : k + edits.length < n) :
    Ago (E.run s (edits.map fun c => .edit c.1 c.2.1 c.2.2)) n (k + edits.length) e := by
  induction edits generalizing s k with
  | nil => exact h
  | cons c edits ih =>
    rw [length_cons] at hk ⊢
    have hedit := h.edit (E := E) (by omega) (hops c mem_cons_self) c.2.1 c.2.2
    have hrun := ih (fun d hd => hops d (mem_cons_of_mem _ hd)) hedit (by omega)
    rwa [Nat.add_right_comm, Nat.add_assoc] at hrun

theorem Ago.undos (h : Ago s n (k + 1) e) :
    (E.run s (replicate (k + 1) .undo)).doc = E.docs.rebuild e.text := by
  induction k generalizing s n with
  | zero => exact h.undo.2 rfl
  | succ k ih => exact ih h.undo.1

/-- **Every edit can be undone**: after edits within the limit, as many undos restore
the schematic, whatever has been done before. Moves are left out, because a move
right after another one is not an edit of its own. -/
theorem undo_edits (E : Editor D O T) (hdl : HdlInfo) {maxUndo : ℕ} (hmax : 1 ≤ maxUndo)
    (cs : List (Command D O)) (hcs : Editor.Limited cs)
    (edits : List (Char × D × List (Painting O))) (hops : ∀ c ∈ edits, c.1 ≠ 'm') :
    let s := E.run (E.fresh hdl maxUndo) cs
    s.symbolMode = false → edits.length < s.maxUndo →
      (E.run s (edits.map (fun c => .edit c.1 c.2.1 c.2.2) ++ replicate edits.length .undo)).doc =
        s.doc := by
  intro s hmode hlimit
  have h : Faithful E s := (faithful_fresh hmax hdl).run hcs
  obtain ⟨t, ht, htext⟩ := h.action
  have hnow : Ago s s.maxUndo 0 t.present := ⟨hmode, rfl, t, ht.stack_eq, rfl⟩
  have hedits := hnow.edits (E := E) hops (by rwa [Nat.zero_add])
  rw [Nat.zero_add] at hedits
  rw [Editor.run, foldl_append]
  cases edits with
  | nil => rfl
  | cons c edits => exact hedits.undos.trans (by rw [htext, E.docs.rebuild_create])

theorem undo_edits_ports :
    (portEditor.run (portEditor.run (portEditor.fresh ⟨[], "", []⟩ 3) portCommands)
      [.edit '*' [] [], .edit '*' [("2", "P2")] [], .undo, .undo]).doc = [("1", "P1")] :=
  undo_edits portEditor ⟨[], "", []⟩ (by decide) portCommands
    (by simp [Editor.Limited, portCommands]) [('*', [], []), ('*', [("2", "P2")], [])] (by simp)
    rfl (by decide)

end Qucs.Schematic
