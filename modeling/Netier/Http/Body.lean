import Netier.Http.Lines

/-! What follows the header lines: nothing, as many bytes as announced, or chunks. -/
namespace Netier.HttpParser
open Lib
variable {memory : Nat → Bool} {framed : Bool} {m : Message} {h : Head} {d : Session} {t : Reader}
  {bs left : List UInt8}

theorem toNat_pos {n : UInt64} (hne : n ≠ 0) : 0 < n.toNat :=
  Nat.pos_of_ne_zero fun hzero => hne (UInt64.toNat_inj.1 hzero)

theorem ofNat_ne_zero {n : Nat} (hpos : 0 < n) (hn : n < 2 ^ 64) : UInt64.ofNat n ≠ 0 := by
  intro hzero
  have htoNat := congrArg UInt64.toNat hzero
  rw [UInt64.toNat_ofNat_of_lt' hn] at htoNat
  simp at htoNat
  omega

theorem toNat_ofInt {n : Nat} (hn : n < 2 ^ 64) : (UInt64.ofInt n).toNat = n := by
  have hmod : ((n : Int) % 2 ^ 64).toNat = n := by omega
  rw [UInt64.ofInt, hmod, UInt64.toNat_ofNat_of_lt' hn]

section Sized

/-- The loop that reads so many bytes. -/
theorem post_count {n : Nat} (hpos : 0 < n) (hn : n ≤ 2 ^ 64) (a bs : List UInt8) :
    Accepts memory framed (.post, { d with contentSize := UInt64.ofNat n, content := a }) bs t left ↔
      ∃ content rest, bs = content ++ rest ∧ content.length = n ∧
        .stop (.completed, rest) (.post, { d with contentSize := 0, content := a ++ content }) =
          Next.stop (Verdict.completed, left) t := by
  refine stop_count_iff
    (fun n a => (MessageState.post, { d with contentSize := UInt64.ofNat n, content := a }))
    (fun a => .stop Verdict.completed (.post, { d with contentSize := 0, content := a })) (2 ^ 64)
    ?more ?done hpos hn a bs
  case more =>
    intro n a b hn hlt
    simp [consumeMessage, ofNat_ne_zero hn (by omega)]
  case done =>
    intro a b
    simp [consumeMessage]

theorem post_iff (hne : d.contentSize ≠ 0) : Accepts memory framed (.post, d) bs t left ↔
    ∃ content, bs = content ++ left ∧ content.length = d.contentSize.toNat ∧
      t = (.post, { d with contentSize := 0, content := d.content ++ content }) := by
  have hlt := d.contentSize.toNat_lt
  have hd : { d with contentSize := UInt64.ofNat d.contentSize.toNat, content := d.content } = d := by simp
  conv_lhs => rw [← hd]
  rw [post_count (toNat_pos hne) (by omega)]
  simp [eq_comm]

end Sized

section Chunks

/-- The blank line makes room for a body, or ends the message. -/
theorem expectingNewline_3_chunked (hc : h.chunked = true) (c : UInt8) :
    consumeMessage memory framed (.expectingNewline_3, h.session m) c = .more (.chunkSize, h.settled m) := by
  have hc' : (h.session m).chunked = true := hc
  simp only [consumeMessage, hc', if_true]
  rfl

/-- The end of a chunk's size, where its value is taken. -/
theorem chunkSizeNewLine_iff : Accepts memory framed (.chunkSizeNewLine, d) bs t left ↔
    ∃ rest, bs = lf :: rest ∧
      reserve memory d.content.length
        (d.content.length + (UInt64.ofInt (strtol 16 d.chunkSizeStr)).toNat) = none ∧
      Accepts memory framed
        (if UInt64.ofInt (strtol 16 d.chunkSizeStr) = 0 then .chunkSizeNewLine_2 else .chunkData,
        { d with chunkSize := UInt64.ofInt (strtol 16 d.chunkSizeStr), chunkSizeStr := [] }) rest t left := by
  cases bs with
  | nil => simp [Accepts, feedRest]
  | cons c rest =>
    by_cases hc : c = lf
    · subst hc
      cases hroom : reserve memory d.content.length
        (d.content.length + (UInt64.ofInt (strtol 16 d.chunkSizeStr)).toNat) with
      | none =>
        rw [Accepts, rest_cons_more (by simp only [consumeMessage, if_true, hroom]; rfl)]
        simp
      | some w =>
        have hne : w ≠ .completed := by
          rintro rfl
          exact reserve_ne _ _ hroom
        rw [Accepts, rest_cons_stop (by simp only [consumeMessage, if_true, hroom]; rfl)]
        simp [hne]
    · rw [Accepts, rest_cons_stop (by simp only [consumeMessage, if_neg hc]; rfl)]
      simp [hc]

/-- The value of an extension or of a trailer, up to the end of its line. -/
theorem skippedValue_iff {s : MessageState} (hs : s = .chunkExtensionValue ∨ s = .chunkTrailerValue) :
    Accepts memory framed (s, d) bs t left ↔
      ∃ value rest, bs = value ++ cr :: rest ∧ (∀ c ∈ value, isalnum c ∨ c = space) ∧
        Accepts memory framed (.chunkSizeNewLine, d) rest t left := by
  have hexit : consumeMessage memory framed (s, d) cr = .more (.chunkSizeNewLine, d) := by
    rcases hs with rfl | rfl <;>
      simp [consumeMessage, show isalnum cr = false by decide, show cr ≠ space by decide]
  refine (stop_skip_until_iff (fun c => isalnum c ∨ c = space) cr ?loop (by decide) ?leave).trans ?_
  case loop =>
    intro c hc
    rcases hs with rfl | rfl <;> simp [consumeMessage, hc]
  case leave =>
    intro c hc hcr
    rcases hs with rfl | rfl <;> exact rejects_error (by simp [consumeMessage, hc, hcr])
  simp only [rest_cons_more hexit]

theorem chunkExtensionName_iff : Accepts memory framed (.chunkExtensionName, d) bs t left ↔
    ∃ (e : Extension) (rest : List UInt8), 59 :: bs = e.print ++ cr :: rest ∧
      Accepts memory framed (.chunkSizeNewLine, d) rest t left := by
  refine (stop_skip_iff (fun c => isalnum c ∨ c = space) ?loop).trans ?_
  case loop =>
    intro c hc
    simp [consumeMessage, hc]
  have hcr : consumeMessage memory framed (.chunkExtensionName, d) cr = .more (.chunkSizeNewLine, d) := by
    simp [consumeMessage, show isalnum cr = false by decide, show cr ≠ space by decide, show cr ≠ 61 by decide]
  have heq : consumeMessage memory framed (.chunkExtensionName, d) 61 = .more (.chunkExtensionValue, d) := by
    simp [consumeMessage, show isalnum 61 = false by decide, show 61 ≠ space by decide]
  constructor
  · rintro ⟨name, c, rest, rfl, hname, hc, hrest⟩
    by_cases hc61 : c = 61
    · subst hc61
      rw [rest_cons_more heq] at hrest
      obtain ⟨value, rest, rfl, hvalue, hrest⟩ := (skippedValue_iff (.inl rfl)).1 hrest
      exact ⟨⟨name, some value, hname, by simpa using hvalue⟩, rest, by simp [Extension.print], hrest⟩
    by_cases hccr : c = cr
    · subst hccr
      rw [rest_cons_more hcr] at hrest
      exact ⟨⟨name, none, hname, by simp⟩, rest, by simp [Extension.print], hrest⟩
    · refine absurd hrest (Rejects.not_stop (rejects_error ?_) rest)
      simp [consumeMessage, hc, hc61, hccr]
  · rintro ⟨⟨name, value, hname, hvalue⟩, rest, hprint, hrest⟩
    cases value with
    | none =>
      obtain rfl : bs = name ++ cr :: rest := by simpa [Extension.print] using hprint
      exact ⟨name, cr, rest, rfl, hname, by decide, by rw [rest_cons_more hcr, hrest]⟩
    | some v =>
      obtain rfl : bs = name ++ 61 :: (v ++ cr :: rest) := by simpa [Extension.print] using hprint
      refine ⟨name, 61, v ++ cr :: rest, rfl, hname, by decide, ?_⟩
      rw [rest_cons_more heq]
      exact (skippedValue_iff (.inl rfl)).2 ⟨v, rest, rfl, hvalue v rfl, hrest⟩

theorem chunkSize_iff (hstr : d.chunkSizeStr = []) : Accepts memory framed (.chunkSize, d) bs t left ↔
    ∃ (l : SizeLine) (rest : List UInt8), bs = l.size ++ (l.extension.elim [] Extension.print ++ cr :: rest) ∧
      Accepts memory framed (.chunkSizeNewLine, { d with chunkSizeStr := l.size }) rest t left := by
  have hcr : ∀ size, consumeMessage memory framed (.chunkSize, { d with chunkSizeStr := size }) cr =
      .more (.chunkSizeNewLine, { d with chunkSizeStr := size }) := by
    intro size
    simp [consumeMessage, show isalnum cr = false by decide, show cr ≠ 59 by decide]
  have hext : ∀ size, consumeMessage memory framed (.chunkSize, { d with chunkSizeStr := size }) 59 =
      .more (.chunkExtensionName, { d with chunkSizeStr := size }) := by
    intro size
    simp [consumeMessage, show isalnum 59 = false by decide]
  have hd : { d with chunkSizeStr := [] } = d := by simp [← hstr]
  conv_lhs => rw [← hd]
  refine (stop_loop_iff (fun c => isalnum c)
    (fun size => (MessageState.chunkSize, { d with chunkSizeStr := size }))
    (fun size c => size ++ [c]) ?loop []).trans ?_
  case loop =>
    intro size c hc
    simp [consumeMessage, hc]
  simp only [foldl_snoc, List.nil_append]
  constructor
  · rintro ⟨size, c, rest, rfl, hsize, hc, hrest⟩
    by_cases hc59 : c = 59
    · subst hc59
      rw [rest_cons_more (hext size)] at hrest
      obtain ⟨e, rest, hprint, hrest⟩ := chunkExtensionName_iff.1 hrest
      exact ⟨⟨size, some e, hsize⟩, rest, by simpa using hprint, hrest⟩
    by_cases hccr : c = cr
    · subst hccr
      rw [rest_cons_more (hcr size)] at hrest
      exact ⟨⟨size, none, hsize⟩, rest, by simp, hrest⟩
    · refine absurd hrest (Rejects.not_stop (rejects_error ?_) rest)
      simp [consumeMessage, hc, hc59, hccr]
  · rintro ⟨⟨size, extension, hsize⟩, rest, rfl, hrest⟩
    cases extension with
    | none => exact ⟨size, cr, rest, rfl, hsize, by decide, by rw [rest_cons_more (hcr size), hrest]⟩
    | some e =>
      obtain ⟨after, hafter⟩ : ∃ after, e.print ++ cr :: rest = 59 :: after := ⟨_, rfl⟩
      refine ⟨size, 59, after, by simp [hafter], hsize, by decide, ?_⟩
      rw [rest_cons_more (hext size)]
      exact chunkExtensionName_iff.2 ⟨e, rest, hafter.symm, hrest⟩

/-- A size line as a whole. -/
theorem sizeLine_iff (hstr : d.chunkSizeStr = []) : Accepts memory framed (.chunkSize, d) bs t left ↔
    ∃ (l : SizeLine) (rest : List UInt8), bs = l.print ++ rest ∧
      reserve memory d.content.length (d.content.length + l.value.toNat) = none ∧
      Accepts memory framed (if l.value = 0 then .chunkSizeNewLine_2 else .chunkData,
        { d with chunkSize := l.value }) rest t left := by
  rw [chunkSize_iff hstr]
  simp only [chunkSizeNewLine_iff]
  constructor
  · rintro ⟨l, rest, rfl, rest', rfl, hroom, hrest⟩
    refine ⟨l, rest', by simp [SizeLine.print, crlf], hroom, ?_⟩
    rw [← hstr] at hrest
    exact hrest
  · rintro ⟨l, rest, rfl, hroom, hrest⟩
    refine ⟨l, lf :: rest, by simp [SizeLine.print, crlf], rest, rfl, hroom, ?_⟩
    rw [← hstr]
    exact hrest

theorem chunkDataNewLine_iff : Accepts memory framed (.chunkDataNewLine_1, d) bs t left ↔
    ∃ rest, bs = crlf ++ rest ∧ Accepts memory framed (.chunkSize, d) rest t left := by
  have hcr : Accepts memory framed (.chunkDataNewLine_1, d) bs t left ↔
      ∃ rest, bs = cr :: rest ∧ Accepts memory framed (.chunkDataNewLine_2, d) rest t left :=
    stop_expect_iff (by simp [consumeMessage]) fun c hc => rejects_error (by simp [consumeMessage, hc])
  have hlf : ∀ bs, Accepts memory framed (.chunkDataNewLine_2, d) bs t left ↔
      ∃ rest, bs = lf :: rest ∧ Accepts memory framed (.chunkSize, d) rest t left := fun bs =>
    stop_expect_iff (by simp [consumeMessage]) fun c hc => rejects_error (by simp [consumeMessage, hc])
  rw [hcr]
  simp only [hlf]
  constructor
  · rintro ⟨rest, rfl, rest', rfl, hrest⟩
    exact ⟨rest', rfl, hrest⟩
  · rintro ⟨rest, rfl, hrest⟩
    exact ⟨lf :: rest, rfl, rest, rfl, hrest⟩

theorem chunkData_count {n : Nat} (hpos : 0 < n) (hn : n ≤ 2 ^ 64) (a bs : List UInt8) :
    Accepts memory framed (.chunkData, { d with chunkSize := UInt64.ofNat n, content := a }) bs t left ↔
      ∃ data rest, bs = data ++ rest ∧ data.length = n ∧
        Accepts memory framed (.chunkDataNewLine_1, { d with chunkSize := 0, content := a ++ data }) rest t left := by
  refine stop_count_iff
    (fun n a => (MessageState.chunkData, { d with chunkSize := UInt64.ofNat n, content := a }))
    (fun a => .more (MessageState.chunkDataNewLine_1, { d with chunkSize := 0, content := a })) (2 ^ 64)
    ?more ?done hpos hn a bs
  case more =>
    intro n a b hn hlt
    simp [consumeMessage, ofNat_ne_zero hn (by omega)]
  case done =>
    intro a b
    simp [consumeMessage]

/-- The bytes of a chunk with its line end. -/
theorem chunkData_iff (hne : d.chunkSize ≠ 0) : Accepts memory framed (.chunkData, d) bs t left ↔
    ∃ data rest, bs = data ++ (crlf ++ rest) ∧ data.length = d.chunkSize.toNat ∧
      Accepts memory framed (.chunkSize, { d with chunkSize := 0, content := d.content ++ data }) rest t left := by
  have hlt := d.chunkSize.toNat_lt
  have hd : { d with chunkSize := UInt64.ofNat d.chunkSize.toNat, content := d.content } = d := by simp
  conv_lhs => rw [← hd]
  rw [chunkData_count (toNat_pos hne) (by omega)]
  simp only [chunkDataNewLine_iff]
  constructor
  · rintro ⟨data, rest, rfl, hlength, rest', rfl, hrest⟩
    exact ⟨data, rest', rfl, hlength, hrest⟩
  · rintro ⟨data, rest, rfl, hlength, hrest⟩
    exact ⟨data, crlf ++ rest, rfl, hlength, rest, rfl, hrest⟩

end Chunks

section Trailers

theorem chunkTrailerName_iff : Accepts memory framed (.chunkTrailerName, d) bs t left ↔
    ∃ name rest, bs = name ++ 58 :: rest ∧ (∀ c ∈ name, isalnum c) ∧
      Accepts memory framed (.chunkTrailerValue, d) rest t left := by
  have hexit : consumeMessage memory framed (.chunkTrailerName, d) 58 = .more (.chunkTrailerValue, d) := by
    simp [consumeMessage, show isalnum 58 = false by decide]
  refine (stop_skip_until_iff (fun c => isalnum c) 58 ?loop (by decide) ?leave).trans ?_
  case loop =>
    intro c hc
    simp [consumeMessage, hc]
  case leave =>
    intro c hc hcolon
    exact rejects_error (by simp [consumeMessage, hc, hcolon])
  simp only [rest_cons_more hexit]

/-- A trailer is read like a chunk of size 0: it leads back to where trailers start. -/
theorem chunkSizeNewLine_trailer (hstr : d.chunkSizeStr = []) (hsize : d.chunkSize = 0) :
    Accepts memory framed (.chunkSizeNewLine, d) bs t left ↔
      ∃ rest, bs = lf :: rest ∧ Accepts memory framed (.chunkSizeNewLine_2, d) rest t left := by
  have hzero : UInt64.ofInt (strtol 16 ([] : List UInt8)) = 0 := by decide
  have hd : { d with chunkSize := 0, chunkSizeStr := [] } = d := by
    simp [← hstr, ← hsize]
  rw [chunkSizeNewLine_iff, hstr, hzero, if_pos rfl, hd]
  simp [reserve]

theorem chunkSizeNewLine_3_iff : Accepts memory framed (.chunkSizeNewLine_3, d) bs t left ↔
    bs = lf :: left ∧ t = (.chunkSizeNewLine_3, d) := by
  cases bs with
  | nil => simp [Accepts, feedRest]
  | cons c rest =>
    by_cases hc : c = lf
    · rw [Accepts, rest_cons_stop (by simp only [consumeMessage, if_pos hc]; rfl)]
      simp [hc, eq_comm]
    · rw [Accepts, rest_cons_stop (by simp only [consumeMessage, if_neg hc]; rfl)]
      simp [hc]

theorem isalpha_ne {c : UInt8} (hc : isalpha c) : c ≠ cr := by
  rintro rfl
  revert hc
  decide

/-- After the last chunk: a trailer, or the end. -/
theorem chunkSizeNewLine_2_iff (hstr : d.chunkSizeStr = []) (hsize : d.chunkSize = 0) (bs : List UInt8) :
    Accepts memory framed (.chunkSizeNewLine_2, d) bs t left ↔
      (bs = crlf ++ left ∧ t = (.chunkSizeNewLine_3, d)) ∨
      ∃ (trailer : Trailer) (rest : List UInt8), bs = trailer.print ++ rest ∧
        Accepts memory framed (.chunkSizeNewLine_2, d) rest t left := by
  have hcr : consumeMessage memory framed (.chunkSizeNewLine_2, d) cr = .more (.chunkSizeNewLine_3, d) := by
    simp [consumeMessage]
  have halpha : ∀ c, isalpha c →
      consumeMessage memory framed (.chunkSizeNewLine_2, d) c = .more (.chunkTrailerName, d) := fun c hc => by
    simp [consumeMessage, isalpha_ne hc, hc]
  constructor
  · intro hacc
    cases bs with
    | nil => exact absurd hacc stop_nil
    | cons c bs =>
      by_cases hc : c = cr
      · subst hc
        rw [Accepts, rest_cons_more hcr] at hacc
        obtain ⟨rfl, ht⟩ := chunkSizeNewLine_3_iff.1 hacc
        exact .inl ⟨rfl, ht⟩
      by_cases hc' : isalpha c
      · rw [Accepts, rest_cons_more (halpha c hc')] at hacc
        obtain ⟨name, rest, rfl, hname, hacc⟩ := chunkTrailerName_iff.1 hacc
        obtain ⟨value, rest, rfl, hvalue, hacc⟩ := (skippedValue_iff (.inr rfl)).1 hacc
        obtain ⟨rest, rfl, hnext⟩ := (chunkSizeNewLine_trailer hstr hsize).1 hacc
        refine .inr ⟨⟨c :: name, value, ⟨c, by simp, hc'⟩, ?_, hvalue⟩, rest, ?_, hnext⟩
        · exact List.forall_mem_cons.2 ⟨by simp [isalnum, hc'], hname⟩
        · simp [Trailer.print, crlf]
      · refine absurd hacc (Rejects.not_stop (rejects_error ?_) bs)
        simp [consumeMessage, hc, hc']
  · rintro (⟨rfl, ht⟩ | ⟨⟨name, value, ⟨c, hhead, hc⟩, hname, hvalue⟩, rest, rfl, hacc⟩)
    · rw [Accepts, crlf, List.cons_append, rest_cons_more hcr]
      exact chunkSizeNewLine_3_iff.2 ⟨rfl, ht⟩
    · obtain ⟨name, rfl⟩ : ∃ name', name = c :: name' := by
        cases name with
        | nil => simp at hhead
        | cons c' name =>
          obtain rfl : c' = c := by simpa using hhead
          exact ⟨name, rfl⟩
      have hprint : Trailer.print ⟨c :: name, value, ⟨c, hhead, hc⟩, hname, hvalue⟩ ++ rest =
          c :: (name ++ 58 :: (value ++ cr :: lf :: rest)) := by simp [Trailer.print, crlf]
      rw [hprint, Accepts, rest_cons_more (halpha c hc)]
      refine chunkTrailerName_iff.2 ⟨name, _, rfl, (List.forall_mem_cons.1 hname).2, ?_⟩
      refine (skippedValue_iff (.inr rfl)).2 ⟨value, _, rfl, hvalue, ?_⟩
      exact (chunkSizeNewLine_trailer hstr hsize).2 ⟨rest, rfl, hacc⟩

/-- The trailers as a whole, with the end of the message. -/
theorem trailers_iff (hstr : d.chunkSizeStr = []) (hsize : d.chunkSize = 0) :
    Accepts memory framed (.chunkSizeNewLine_2, d) bs t left ↔
      ∃ trailers : List Trailer, bs = trailers.flatMap Trailer.print ++ (crlf ++ left) ∧
        t = (.chunkSizeNewLine_3, d) := by
  rw [star_plain_iff (fun trailer => by simp [Trailer.print]) (chunkSizeNewLine_2_iff hstr hsize) bs]
  constructor
  · rintro ⟨trailers, _, rfl, rfl, ht⟩
    exact ⟨trailers, rfl, ht⟩
  · rintro ⟨trailers, rfl, ht⟩
    exact ⟨trailers, crlf ++ left, rfl, rfl, ht⟩

end Trailers

section Body

/-- The last chunk, the trailers and the end. -/
def Ending (d : Session) (t : Reader) (bs left : List UInt8) : Prop :=
  ∃ (last : SizeLine) (trailers : List Trailer), last.value = 0 ∧
    bs = last.print ++ (trailers.flatMap Trailer.print ++ (crlf ++ left)) ∧ t = (.chunkSizeNewLine_3, d)

theorem Chunk.print_ne (c : Chunk) : c.print ≠ [] := by
  simp [Chunk.print, SizeLine.print, crlf]

theorem data_pos {data : List UInt8} {n : UInt64} (hlength : data.length = n.toNat) : data ≠ [] ↔ n ≠ 0 := by
  rw [← List.length_pos_iff, hlength, Nat.pos_iff_ne_zero, Ne, Ne, ← UInt64.toNat_inj, UInt64.toNat_zero]

/-- A line with a size, and what belongs to it. -/
theorem chunk_iff (hstr : d.chunkSizeStr = []) (hsize : d.chunkSize = 0) (content bs : List UInt8) :
    Accepts memory framed (.chunkSize, { d with content := content }) bs t left ↔
      Ending { d with content := content } t bs left ∨
      ∃ (c : Chunk) (rest : List UInt8) (content' : List UInt8), bs = c.print ++ rest ∧
        c.read memory content = some content' ∧
        Accepts memory framed (.chunkSize, { d with content := content' }) rest t left := by
  have hd : ∀ content, { d with chunkSize := 0, content := content } = { d with content := content } := by
    simp [← hsize]
  rw [sizeLine_iff (d := { d with content := content }) hstr]
  constructor
  · rintro ⟨l, rest, rfl, hroom, hrest⟩
    by_cases hl : l.value = 0
    · rw [if_pos hl, hl, hd] at hrest
      obtain ⟨trailers, rfl, ht⟩ :=
        (trailers_iff (d := { d with content := content }) hstr hsize).1 hrest
      exact .inl ⟨l, trailers, hl, rfl, ht⟩
    · rw [if_neg hl, chunkData_iff hl] at hrest
      obtain ⟨data, rest, rfl, hlength, hrest⟩ := hrest
      refine .inr ⟨⟨l, data, hlength, (data_pos hlength).2 hl⟩, rest, content ++ data, ?_, ?_, ?_⟩
      · simp [Chunk.print]
      · rw [Chunk.read, hlength]
        exact if_pos hroom
      · rw [← hd]
        exact hrest
  · rintro (⟨last, trailers, hlast, rfl, ht⟩ |
      ⟨⟨l, data, hlength, hne⟩, rest, content', rfl, hread, hrest⟩)
    · refine ⟨last, _, rfl, by simp [hlast, reserve], ?_⟩
      rw [if_pos hlast, hlast, hd]
      exact (trailers_iff (d := { d with content := content }) hstr hsize).2 ⟨trailers, rfl, ht⟩
    · have hl : l.value ≠ 0 := (data_pos hlength).1 hne
      rw [Chunk.read] at hread
      split_ifs at hread with hroom
      cases hread
      refine ⟨l, data ++ (crlf ++ rest), by simp [Chunk.print], by rw [← hlength, hroom], ?_⟩
      rw [if_neg hl, chunkData_iff hl]
      exact ⟨data, rest, rfl, hlength, by rwa [hd]⟩

/-- A body in chunks. -/
theorem chunks_iff (hstr : d.chunkSizeStr = []) (hsize : d.chunkSize = 0) (bs : List UInt8) :
    Accepts memory framed (.chunkSize, d) bs t left ↔
      ∃ (body : ChunkedBody) (content : List UInt8), bs = body.print ++ left ∧
        body.chunks.foldlM (Chunk.read memory) d.content = some content ∧
        t = (.chunkSizeNewLine_3, { d with content := content }) := by
  have hstar := star_iff
    (C := fun content bs => Accepts memory framed (.chunkSize, { d with content := content }) bs t left)
    Chunk.print_ne (chunk_iff hstr hsize) d.content bs
  refine hstar.trans ?_
  constructor
  · rintro ⟨chunks, _, content, rfl, hread, last, trailers, hlast, rfl, ht⟩
    exact ⟨⟨chunks, last, trailers, hlast⟩, content, by simp [ChunkedBody.print], hread, ht⟩
  · rintro ⟨⟨chunks, last, trailers, hlast⟩, content, rfl, hread, ht⟩
    exact ⟨chunks, _, content, by simp only [ChunkedBody.print, List.append_assoc], hread,
      last, trailers, hlast, rfl, ht⟩

theorem expectingNewline_3_sized (hc : h.chunked = false) (hsize : h.contentSize ≠ 0) (c : UInt8) :
    consumeMessage memory framed (.expectingNewline_3, h.session m) c = .more (.post, h.settled m) := by
  have hc' : (h.session m).chunked = false := hc
  have hsize' : (h.session m).contentSize ≠ 0 := hsize
  simp only [consumeMessage, hc', Bool.false_eq_true, if_false, if_neg hsize']
  rfl

theorem expectingNewline_3_empty (hc : h.chunked = false) (hsize : h.contentSize = 0) (c : UInt8) :
    consumeMessage memory framed (.expectingNewline_3, h.session m) c =
      .stop (if c = lf then .completed else .error) (.expectingNewline_3, h.settled m) := by
  have hc' : (h.session m).chunked = false := hc
  have hsize' : (h.session m).contentSize = 0 := hsize
  simp only [consumeMessage, hc', Bool.false_eq_true, if_false, if_pos hsize']
  split_ifs <;> rfl

/-- What may follow the blank line; without a body to come it ends the message. -/
theorem expectingNewline_3_iff :
    Accepts memory framed (.expectingNewline_3, h.session m) bs t left ↔
      ∃ (newline : UInt8) (body : Body), bs = newline :: (body.print ++ left) ∧
        body.read memory newline h (h.settled m) = some t := by
  constructor
  · intro hacc
    cases bs with
    | nil => exact absurd hacc stop_nil
    | cons c bs =>
      cases hchunked : h.chunked with
      | true =>
        rw [Accepts, rest_cons_more (expectingNewline_3_chunked hchunked c)] at hacc
        obtain ⟨body, content, rfl, hread, rfl⟩ := (chunks_iff rfl rfl bs).1 hacc
        exact ⟨c, .chunked body, rfl, by simp [Body.read, hchunked, hread]⟩
      | false =>
        by_cases hsize : h.contentSize = 0
        · rw [Accepts, rest_cons_stop (expectingNewline_3_empty hchunked hsize c)] at hacc
          split_ifs at hacc with hc
          · cases hacc
            exact ⟨c, .empty, rfl, by simp [Body.read, hchunked, hsize, hc]⟩
          · cases hacc
        · rw [Accepts, rest_cons_more (expectingNewline_3_sized hchunked hsize c)] at hacc
          obtain ⟨content, rfl, hlength, rfl⟩ := (post_iff hsize).1 hacc
          have hlength' : content.length = h.contentSize.toNat := hlength
          exact ⟨c, .sized content, rfl, by simp [Body.read, hchunked, hsize, hlength']⟩
  · rintro ⟨c, body, rfl, hread⟩
    cases body with
    | empty =>
      simp only [Body.read] at hread
      split_ifs at hread with hb
      obtain ⟨hchunked, hsize, rfl⟩ := hb
      cases hread
      exact rest_cons_stop (expectingNewline_3_empty hchunked hsize lf) left
    | sized content =>
      simp only [Body.read] at hread
      split_ifs at hread with hb
      obtain ⟨hchunked, hsize, hlength⟩ := hb
      cases hread
      rw [Accepts, rest_cons_more (expectingNewline_3_sized hchunked hsize c)]
      exact (post_iff hsize).2 ⟨content, rfl, hlength, rfl⟩
    | chunked body =>
      simp only [Body.read] at hread
      split_ifs at hread with hchunked
      obtain ⟨content, hchunks, rfl⟩ := Option.map_eq_some_iff.1 hread
      rw [Accepts, rest_cons_more (expectingNewline_3_chunked hchunked c)]
      exact (chunks_iff rfl rfl _).2 ⟨body, content, rfl, hchunks, rfl⟩

end Body

/-- The reader takes exactly the texts of the grammar, and reads what they mean. -/
theorem message_iff (hm : m.content = []) :
    Accepts memory framed (.headerLineStart, ⟨m, ⟨0, [], 0, false⟩⟩) bs t left ↔
      ∃ text : MessageText, bs = text.print ++ left ∧ text.read memory framed m = some t := by
  have hstart : (⟨m, ⟨0, [], 0, false⟩⟩ : Session) = Head.session ⟨m.headers, 0, false⟩ m := rfl
  rw [hstart, lines_iff hm]
  constructor
  · rintro ⟨lines, _, h, rfl, hlines, rest, rfl, hacc⟩
    obtain ⟨newline, body, rfl, hread⟩ := expectingNewline_3_iff.1 hacc
    refine ⟨⟨lines, newline, body⟩, by simp [MessageText.print], ?_⟩
    simp [MessageText.read, hlines, hread]
  · rintro ⟨⟨lines, newline, body⟩, rfl, hread⟩
    obtain ⟨h, hlines, hread⟩ := Option.bind_eq_some_iff.1 hread
    refine ⟨lines, cr :: newline :: (body.print ++ left), h, by simp [MessageText.print], hlines, _, rfl, ?_⟩
    exact expectingNewline_3_iff.2 ⟨newline, body, rfl, hread⟩

end Netier.HttpParser
