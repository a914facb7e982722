import Netier.Http.Grammar

/-! The header lines: a text is accepted from the start of a line exactly if it begins with
lines of the grammar, whose reading leaves the head from which the rest is accepted. -/
namespace Netier.HttpParser
open Lib
variable {memory : Nat → Bool} {framed : Bool} {m : Message} {h : Head} {t : Reader}
  {bs left : List UInt8}

/-- The reader completes on these bytes up to what is left of them. -/
abbrev Accepts (memory : Nat → Bool) (framed : Bool) (r : Reader) (bs : List UInt8) (t : Reader)
    (left : List UInt8) : Prop :=
  feedRest (consumeMessage memory framed) r bs = .stop (.completed, left) t

theorem rejects_error {r : Reader} {c : UInt8} (h : consumeMessage memory framed r c = .stop .error r) :
    Rejects (consumeMessage memory framed) .completed r c :=
  ⟨.error, r, h, by decide⟩

theorem reserve_ne (size n : Nat) : reserve memory size n ≠ some .completed := by
  unfold reserve
  split_ifs <;> simp

/-- Without room the reader does not go on. -/
theorem reserve_rejects {size n : Nat} {r s next : Reader} {c : UInt8} (hroom : reserve memory size n ≠ none)
    (h : consumeMessage memory framed r c = unlessThrown (reserve memory size n) s next) :
    Rejects (consumeMessage memory framed) .completed r c := by
  obtain ⟨w, hw⟩ := Option.ne_none_iff_exists'.1 hroom
  rw [hw] at h
  exact ⟨w, s, h, fun hc => reserve_ne size n (hw.trans (congrArg some hc))⟩

@[simp] theorem amendBack_concat (hs : List HeaderItem) (item : HeaderItem)
    (f : HeaderItem → HeaderItem) : amendBack (hs ++ [item]) f = some (hs ++ [f item]) := by
  simp [amendBack]

@[simp] theorem push_headers (item : HeaderItem) : (h.push item).headers = h.headers ++ [item] := rfl

theorem isToken_eq {c : UInt8} : isToken c = true ↔
    isChar c = true ∧ isControl c = false ∧ isSpecial c = false := by
  simp [isToken, and_assoc]

theorem withBack_push (here next : MessageState) (item : HeaderItem) (f : HeaderItem → HeaderItem) :
    withBack here next ((h.push item).session m) f = .more (next, (h.push (f item)).session m) := by
  simp [withBack, Head.session, Head.push]

section Steps

theorem newline_2_iff {d : Session} : Accepts memory framed (.expectingNewline_2, d) bs t left ↔
    ∃ rest, bs = lf :: rest ∧ Accepts memory framed (.headerLineStart, d) rest t left := by
  refine stop_expect_iff (by simp [consumeMessage]) fun c hc => ?_
  exact rejects_error (by simp [consumeMessage, hc])

/-- The end of a header line, with the last header at hand. -/
theorem headerEnd_session (memory : Nat → Bool) (hm : m.content = []) {item : HeaderItem}
    (hlast : h.headers.getLast? = some item) :
    headerEnd memory (h.session m) =
      if strcasecmp item.name (ascii "Content-Length") then
        unlessThrown (reserve memory 0 (UInt64.ofInt (atoi item.value)).toNat)
          (.headerValue, { h with contentSize := UInt64.ofInt (atoi item.value) : Head }.session m)
          (.expectingNewline_2, { h with contentSize := UInt64.ofInt (atoi item.value) : Head }.session m)
      else if strcasecmp item.name (ascii "Transfer-Encoding") ∧ strcasecmp item.value (ascii "chunked") then
        .more (.expectingNewline_2, { h with chunked := true : Head }.session m)
      else .more (.expectingNewline_2, h.session m) := by
  have hlast' : (h.session m).headers.getLast? = some item := hlast
  rw [headerEnd, hlast']
  by_cases hname : strcasecmp item.name (ascii "Content-Length")
  · simp [hname, Head.session, hm]
  · by_cases henc : strcasecmp item.name (ascii "Transfer-Encoding") <;>
      by_cases hval : strcasecmp item.value (ascii "chunked") <;> simp [hname, henc, hval, Head.session]

/-- A header line is evaluated at its end. -/
theorem headerValue_cr (hm : m.content = []) {h' : Head} (hh : h.frame memory framed = some h') :
    consumeMessage memory framed (.headerValue, h.session m) cr = .more (.expectingNewline_2, h'.session m) := by
  cases framed with
  | false =>
    obtain rfl : h = h' := by simpa [Head.frame] using hh
    simp [consumeMessage]
  | true =>
    obtain ⟨item, hlast, hh⟩ := Option.bind_eq_some_iff.1 hh
    simp only [consumeMessage, if_true, headerEnd_session memory hm hlast]
    by_cases hname : strcasecmp item.name (ascii "Content-Length")
    · rw [if_pos hname] at hh ⊢
      obtain ⟨hroom, rfl⟩ := by simpa using hh
      rw [hroom]
      rfl
    · rw [if_neg hname] at hh ⊢
      split_ifs at hh ⊢ <;> cases hh <;> rfl

theorem headerValue_cr_rejects (hm : m.content = []) (hh : h.frame memory framed = none)
    (hlast : h.headers ≠ []) :
    Rejects (consumeMessage memory framed) .completed (.headerValue, h.session m) cr := by
  cases framed with
  | false => simp [Head.frame] at hh
  | true =>
    have hlast' := List.getLast?_eq_some_getLast hlast
    simp only [Head.frame, if_true, hlast', Option.bind_some] at hh
    by_cases hname : strcasecmp (h.headers.getLast hlast).name (ascii "Content-Length")
    · rw [if_pos hname] at hh
      have hend := (headerEnd_session memory hm hlast').trans (if_pos hname)
      exact reserve_rejects (by simpa using hh) (Eq.trans (by simp [consumeMessage]) hend)
    · rw [if_neg hname] at hh
      split_ifs at hh

theorem headerValue_iff (hm : m.content = []) (name value : List UInt8) :
    Accepts memory framed (.headerValue, (h.push ⟨name, value⟩).session m) bs t left ↔
      ∃ run rest h', bs = run ++ (crlf ++ rest) ∧ (∀ c ∈ run, isControl c = false) ∧
        (h.push ⟨name, value ++ run⟩).frame memory framed = some h' ∧
        Accepts memory framed (.headerLineStart, h'.session m) rest t left := by
  refine (stop_collect_until_iff (fun c => isControl c = false)
    (fun v => (MessageState.headerValue, (h.push ⟨name, v⟩).session m))
    cr ?loop (by decide) ?leave value).trans ?_
  case loop =>
    intro v c hc
    have hcr : c ≠ cr := by
      rintro rfl
      revert hc
      decide
    simp [consumeMessage, hcr, hc, withBack_push, HeaderItem.pushValue]
  case leave =>
    intro v c hc hcr
    exact rejects_error (by simp [consumeMessage, hcr, hc])
  constructor
  · rintro ⟨run, rest, rfl, hrun, hrest⟩
    cases hframe : (h.push ⟨name, value ++ run⟩).frame memory framed with
    | none =>
      exact absurd hrest ((headerValue_cr_rejects hm hframe (by simp)).not_stop rest)
    | some h' =>
      rw [rest_cons_more (headerValue_cr hm hframe)] at hrest
      obtain ⟨rest, rfl, hrest⟩ := newline_2_iff.1 hrest
      exact ⟨run, rest, h', rfl, hrun, hframe, hrest⟩
  · rintro ⟨run, rest, h', rfl, hrun, hframe, hrest⟩
    refine ⟨run, lf :: rest, rfl, hrun, ?_⟩
    rw [rest_cons_more (headerValue_cr hm hframe)]
    exact newline_2_iff.2 ⟨rest, rfl, hrest⟩

theorem spaceBeforeHeaderValue_iff {d : Session} : Accepts memory framed (.spaceBeforeHeaderValue, d) bs t left ↔
    ∃ rest, bs = space :: rest ∧ Accepts memory framed (.headerValue, d) rest t left := by
  refine stop_expect_iff (by simp [consumeMessage]) fun c hc => ?_
  exact rejects_error (by simp [consumeMessage, hc])

theorem headerName_iff (name : List UInt8) :
    Accepts memory framed (.headerName, (h.push ⟨name, []⟩).session m) bs t left ↔
      ∃ run rest, bs = run ++ 58 :: rest ∧ (∀ c ∈ run, isToken c) ∧
        Accepts memory framed (.spaceBeforeHeaderValue, (h.push ⟨name ++ run, []⟩).session m) rest t left := by
  refine (stop_collect_until_iff (fun c => isToken c)
    (fun n => (MessageState.headerName, (h.push ⟨n, []⟩).session m)) 58 ?loop (by decide) ?leave name).trans ?_
  case loop =>
    intro n c hc
    have hcolon : c ≠ 58 := isToken_ne hc (by decide)
    simp [consumeMessage, hcolon, isToken_eq.1 hc, withBack_push, HeaderItem.pushName]
  case leave =>
    intro n c hc hcolon
    have hc' : (!isChar c || isControl c || isSpecial c) = true := by
      simpa [isToken, imp_iff_not_or] using hc
    exact rejects_error (by simp only [consumeMessage, hcolon, if_false, hc', if_true])
  rfl

theorem exists_push (hne : h.headers ≠ []) : ∃ (h₀ : Head) (item : HeaderItem), h = h₀.push item :=
  ⟨{ h with headers := h.headers.dropLast }, h.headers.getLast hne, by
    simp [Head.push, List.dropLast_concat_getLast]⟩

theorem blank_ne {c : UInt8} (hc : c = space ∨ c = tab) : c ≠ cr := by
  rcases hc with rfl | rfl <;> decide

theorem headerLws_cr (d : Session) :
    consumeMessage memory framed (.headerLws, d) cr = .more (.expectingNewline_2, d) := by
  simp [consumeMessage]

theorem headerLws_text {item : HeaderItem} {c : UInt8} (hc : ¬ (c = space ∨ c = tab)) (hcr : c ≠ cr)
    (htext : isControl c = false) :
    consumeMessage memory framed (.headerLws, (h.push item).session m) c =
      .more (.headerValue, (h.push (item.pushValue c)).session m) := by
  simp [consumeMessage, hcr, hc, htext, withBack_push]

/-- The rest of a line that goes on with the value before it. -/
theorem headerLws_iff (hm : m.content = []) (item : HeaderItem) :
    Accepts memory framed (.headerLws, (h.push item).session m) bs t left ↔
      ∃ blank value rest h', bs = blank ++ (value ++ (crlf ++ rest)) ∧
        (∀ c ∈ blank, c = space ∨ c = tab) ∧
        (∀ c ∈ value, isControl c = false) ∧ value.head? ≠ some space ∧
        (if value = [] then some (h.push item)
          else (h.push ⟨item.name, item.value ++ value⟩).frame memory framed) = some h' ∧
        Accepts memory framed (.headerLineStart, h'.session m) rest t left := by
  refine (stop_skip_iff (fun c => c = space ∨ c = tab) ?loop).trans ?_
  case loop =>
    intro c hc
    simp [consumeMessage, blank_ne hc, hc]
  constructor
  · rintro ⟨blank, c, rest, rfl, hblank, hc, hrest⟩
    by_cases hcr : c = cr
    · subst hcr
      rw [rest_cons_more (headerLws_cr _)] at hrest
      obtain ⟨rest, rfl, hrest⟩ := newline_2_iff.1 hrest
      exact ⟨blank, [], rest, _, rfl, hblank, by simp, by simp, if_pos rfl, hrest⟩
    · cases htext : isControl c with
      | true =>
        refine absurd hrest (Rejects.not_stop (rejects_error ?_) rest)
        simp [consumeMessage, hcr, hc, htext]
      | false =>
        rw [rest_cons_more (headerLws_text hc hcr htext)] at hrest
        obtain ⟨run, rest, h', rfl, hrun, hframe, hrest⟩ := (headerValue_iff hm _ _).1 hrest
        refine ⟨blank, c :: run, rest, h', rfl, hblank, ?_, ?_, ?_, hrest⟩
        · exact List.forall_mem_cons.2 ⟨htext, hrun⟩
        · simpa using fun hspace => hc (.inl hspace)
        · simpa using hframe
  · rintro ⟨blank, value, rest, h', rfl, hblank, hvalue, hhead, hframe, hrest⟩
    cases value with
    | nil =>
      cases hframe
      refine ⟨blank, cr, lf :: rest, rfl, hblank, by decide, ?_⟩
      rw [rest_cons_more (headerLws_cr _)]
      exact newline_2_iff.2 ⟨rest, rfl, hrest⟩
    | cons c run =>
      obtain ⟨htext, hrun⟩ := List.forall_mem_cons.1 hvalue
      have hc : ¬ (c = space ∨ c = tab) := by
        rintro (rfl | rfl)
        · exact hhead rfl
        · exact absurd htext (by decide)
      have hcr : c ≠ cr := by
        rintro rfl
        exact absurd htext (by decide)
      refine ⟨blank, c, run ++ (crlf ++ rest), rfl, hblank, hc, ?_⟩
      rw [rest_cons_more (headerLws_text hc hcr htext)]
      exact (headerValue_iff hm _ _).2 ⟨run, rest, h', rfl, hrun, by simpa using hframe, hrest⟩

theorem headerLineStart_blank {item : HeaderItem} {c : UInt8} (hc : c = space ∨ c = tab) :
    consumeMessage memory framed (.headerLineStart, (h.push item).session m) c =
      .more (.headerLws, (h.push item).session m) := by
  have hne : (((h.push item).session m).headers.isEmpty = false) := by simp [Head.session]
  simp [consumeMessage, blank_ne hc, hc, hne]

theorem headerLineStart_token {c : UInt8} (hc : isToken c) :
    consumeMessage memory framed (.headerLineStart, h.session m) c =
      .more (.headerName, (h.push ⟨[c], []⟩).session m) := by
  have hcr : c ≠ cr := isToken_ne hc (by decide)
  have hspace : c ≠ space := isToken_ne hc (by decide)
  have htab : c ≠ tab := isToken_ne hc (by decide)
  simp [consumeMessage, hcr, hspace, htab, isToken_eq.1 hc, Head.session, Head.push]

/-- A line with a name, from its first byte on. -/
theorem field_iff (hm : m.content = []) {c : UInt8} (hc : isToken c) :
    Accepts memory framed (.headerLineStart, h.session m) (c :: bs) t left ↔
      ∃ (f : Field) (rest : List UInt8) (h' : Head), c :: bs = f.print ++ rest ∧
        (Line.field f).read memory framed h = some h' ∧
        Accepts memory framed (.headerLineStart, h'.session m) rest t left := by
  rw [Accepts, rest_cons_more (headerLineStart_token hc)]
  refine (headerName_iff [c]).trans ?_
  constructor
  · rintro ⟨name, rest, rfl, hname, hrest⟩
    obtain ⟨rest, rfl, hrest⟩ := spaceBeforeHeaderValue_iff.1 hrest
    obtain ⟨value, rest, h', rfl, hvalue, hframe, hrest⟩ := (headerValue_iff hm _ _).1 hrest
    refine ⟨⟨c :: name, value, by simp, List.forall_mem_cons.2 ⟨hc, hname⟩, hvalue⟩,
      rest, h', ?_, ?_, hrest⟩
    · simp [Field.print]
    · simpa [Line.read] using hframe
  · rintro ⟨⟨name, value, hne, hname, hvalue⟩, rest, h', hprint, hread, hrest⟩
    obtain ⟨c', name, rfl⟩ := List.exists_cons_of_ne_nil hne
    obtain ⟨rfl, rfl⟩ : c = c' ∧ bs = name ++ 58 :: space :: (value ++ (crlf ++ rest)) := by
      simpa [Field.print] using hprint
    refine ⟨name, space :: (value ++ (crlf ++ rest)), rfl, (List.forall_mem_cons.1 hname).2, ?_⟩
    refine spaceBeforeHeaderValue_iff.2 ⟨value ++ (crlf ++ rest), rfl, ?_⟩
    exact (headerValue_iff hm _ _).2 ⟨value, rest, h', rfl, hvalue, by simpa [Line.read] using hread, hrest⟩

theorem fold_read (item : HeaderItem) (f : Fold) : (Line.fold f).read memory framed (h.push item) =
    if f.value = [] then some (h.push item)
    else (h.push ⟨item.name, item.value ++ f.value⟩).frame memory framed := by
  by_cases hvalue : f.value = []
  · simp [Line.read, hvalue, Head.push]
  · simp [Line.read, hvalue, Head.push]

/-- A line that goes on with the value of the last header. -/
theorem fold_iff (hm : m.content = []) {item : HeaderItem} {c : UInt8} (hc : c = space ∨ c = tab) :
    Accepts memory framed (.headerLineStart, (h.push item).session m) (c :: bs) t left ↔
      ∃ (f : Fold) (rest : List UInt8) (h' : Head), c :: bs = f.print ++ rest ∧
        (Line.fold f).read memory framed (h.push item) = some h' ∧
        Accepts memory framed (.headerLineStart, h'.session m) rest t left := by
  rw [Accepts, rest_cons_more (headerLineStart_blank hc)]
  refine (headerLws_iff hm item).trans ?_
  constructor
  · rintro ⟨blank, value, rest, h', rfl, hblank, hvalue, hhead, hframe, hrest⟩
    refine ⟨⟨c :: blank, value, by simp, List.forall_mem_cons.2 ⟨hc, hblank⟩, hvalue, hhead⟩,
      rest, h', ?_, ?_, hrest⟩
    · simp [Fold.print]
    · rw [fold_read]
      exact hframe
  · rintro ⟨⟨blank, value, hne, hblank, hvalue, hhead⟩, rest, h', hprint, hread, hrest⟩
    obtain ⟨c', blank, rfl⟩ := List.exists_cons_of_ne_nil hne
    obtain ⟨rfl, rfl⟩ : c = c' ∧ bs = blank ++ (value ++ (crlf ++ rest)) := by
      simpa [Fold.print] using hprint
    rw [fold_read] at hread
    exact ⟨blank, value, rest, h', rfl, (List.forall_mem_cons.1 hblank).2, hvalue, hhead, hread, hrest⟩

/-- What the start of a line may be followed by. -/
theorem headerLineStart_iff (hm : m.content = []) (h : Head) (bs : List UInt8) :
    Accepts memory framed (.headerLineStart, h.session m) bs t left ↔
      (∃ rest, bs = cr :: rest ∧ Accepts memory framed (.expectingNewline_3, h.session m) rest t left) ∨
      ∃ (line : Line) (rest : List UInt8) (h' : Head), bs = line.print ++ rest ∧
        line.read memory framed h = some h' ∧ Accepts memory framed (.headerLineStart, h'.session m) rest t left := by
  have hstop : consumeMessage memory framed (.headerLineStart, h.session m) cr =
      .more (.expectingNewline_3, h.session m) := by simp [consumeMessage]
  constructor
  · intro hacc
    cases bs with
    | nil => exact absurd hacc stop_nil
    | cons c bs =>
      by_cases hcr : c = cr
      · subst hcr
        rw [Accepts, rest_cons_more hstop] at hacc
        exact .inl ⟨bs, rfl, hacc⟩
      by_cases hfold : h.headers ≠ [] ∧ (c = space ∨ c = tab)
      · obtain ⟨h₀, item, rfl⟩ := exists_push hfold.1
        obtain ⟨f, rest, h', hprint, hread, hrest⟩ := (fold_iff hm hfold.2).1 hacc
        exact .inr ⟨.fold f, rest, h', hprint, hread, hrest⟩
      by_cases htoken : isToken c
      · obtain ⟨f, rest, h', hprint, hread, hrest⟩ := (field_iff hm htoken).1 hacc
        exact .inr ⟨.field f, rest, h', hprint, hread, hrest⟩
      · refine absurd hacc (Rejects.not_stop (rejects_error ?_) bs)
        have hfold' : (!(h.session m).headers.isEmpty && (c == space || c == tab)) = false := by
          simpa [Head.session] using hfold
        have htoken' : (!isChar c || isControl c || isSpecial c) = true := by
          simpa [isToken, imp_iff_not_or] using htoken
        simp only [consumeMessage, hcr, if_false, hfold', htoken', if_true, Bool.false_eq_true]
  · rintro (⟨rest, rfl, hrest⟩ | ⟨line, rest, h', rfl, hread, hrest⟩)
    · rw [Accepts, rest_cons_more hstop]
      exact hrest
    · cases line with
      | field f =>
        obtain ⟨c, name, hname⟩ := List.exists_cons_of_ne_nil f.name_ne
        have hc : isToken c := f.name_token c (by simp [hname])
        have hprint : (Line.field f).print ++ rest = c :: (name ++ 58 :: space :: (f.value ++ crlf) ++ rest) := by
          simp [Line.print, Field.print, hname]
        rw [hprint]
        exact (field_iff hm hc).2 ⟨f, rest, h', hprint.symm, hread, hrest⟩
      | fold f =>
        obtain ⟨c, blank, hblank⟩ := List.exists_cons_of_ne_nil f.blank_ne
        have hc : c = space ∨ c = tab := f.blank_blank c (by simp [hblank])
        have hprint : (Line.fold f).print ++ rest = c :: (blank ++ (f.value ++ crlf) ++ rest) := by
          simp [Line.print, Fold.print, hblank]
        have hne : h.headers ≠ [] := by
          intro hnil
          simp [Line.read, amendBack, hnil] at hread
        obtain ⟨h₀, item, rfl⟩ := exists_push hne
        rw [hprint]
        exact (fold_iff hm hc).2 ⟨f, rest, h', hprint.symm, hread, hrest⟩

theorem Line.print_ne (line : Line) : line.print ≠ [] := by
  cases line with
  | field f => simp [Line.print, Field.print]
  | fold f => simp [Line.print, Fold.print, f.blank_ne]

end Steps

/-- The header lines as a whole. -/
theorem lines_iff (hm : m.content = []) (h : Head) (bs : List UInt8) :
    Accepts memory framed (.headerLineStart, h.session m) bs t left ↔
      ∃ (lines : List Line) (rest : List UInt8) (h' : Head), bs = lines.flatMap Line.print ++ rest ∧
        lines.foldlM (Line.read memory framed) h = some h' ∧
        ∃ rest', rest = cr :: rest' ∧ Accepts memory framed (.expectingNewline_3, h'.session m) rest' t left :=
  star_iff Line.print_ne (headerLineStart_iff hm) h bs

end Netier.HttpParser
