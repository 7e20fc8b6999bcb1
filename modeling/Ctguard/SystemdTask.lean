import Ctguard.LogscanDaemon

/-!
# The messages of the system log

`systemd_task` receives datagrams into a buffer of 512 bytes, which it ends with a zero and
queues as a string. The buffer is not initialised, so behind a datagram it holds anything. The
priority in front of a message is cut off by its position: the fourth byte has to be `>`.
-/

namespace Ctguard.SystemdTask

open LogscanDaemon (systemdMessage)

/-- The receive buffer. -/
structure Buffer where
  bytes : List Char
  size : bytes.length = 512

namespace Buffer

/-- Receiving overwrites as much of the buffer as the datagram has bytes, at most all of it. -/
def recv (b : Buffer) (datagram : List Char) : Buffer where
  bytes := datagram.take 512 ++ b.bytes.drop datagram.length
  size := by
    have hsize := b.size
    simp
    omega

def set (b : Buffer) (i : ℕ) (c : Char) : Buffer where
  bytes := b.bytes.set i c
  size := by
    have hsize := b.size
    simpa using hsize

/-- The string that begins at an offset. -/
def cString (b : Buffer) (offset : ℕ) : List Char :=
  (b.bytes.drop offset).takeWhile (· ≠ '\x00')

end Buffer

/-- The buffer after a datagram of `n` bytes has been received into it. -/
def terminate (n : ℕ) (b : Buffer) : Buffer :=
  if 512 ≤ n then b.set 511 '\x00' else b.set n '\x00'

def messageText (b : Buffer) : List Char :=
  if b.bytes[0]? = some '<' ∧ b.bytes[3]? = some '>' then b.cString 4 else b.cString 0

/-- The text that is queued for a datagram, given what the buffer held before. Where no zero byte is
left in the buffer, it ends with the buffer; the program reads on behind it then. -/
def queuedText (stale : Buffer) (datagram : List Char) : List Char :=
  messageText (terminate datagram.length (stale.recv datagram))

/-- One turn of the loop: a call that fails gives no message. -/
def turn (stale : Buffer) (now : ℤ) : Option (List Char) → List SourceEvent
  | none => []
  | some datagram => [systemdMessage now (String.ofList (queuedText stale datagram))]

/-- The messages of a run, each turn with the contents of its buffer, the time, and what was
received. -/
def messages (turns : List (Buffer × ℤ × Option (List Char))) : List SourceEvent :=
  turns.flatMap fun t => turn t.1 t.2.1 t.2.2

section Header

/-- The header of a priority: one to three digits in angle brackets. -/
def Header (h : List Char) : Prop :=
  ∃ digits, h = '<' :: digits ++ ['>'] ∧ (∀ c ∈ digits, c.isDigit = true) ∧
    1 ≤ digits.length ∧ digits.length ≤ 3

/-- A text without its header, if it has one. -/
def withoutHeader (d : List Char) : List Char :=
  let digits := d.tail.takeWhile Char.isDigit
  let rest := d.tail.dropWhile Char.isDigit
  if d.head? = some '<' ∧ 1 ≤ digits.length ∧ digits.length ≤ 3 ∧ rest.head? = some '>' then
    rest.tail
  else d

def HasHeader (d : List Char) : Prop := ∃ h text, Header h ∧ d = h ++ text

theorem withoutHeader_append {h : List Char} (hheader : Header h) (text : List Char) :
    withoutHeader (h ++ text) = text := by
  obtain ⟨digits, rfl, hdigits, hone, hthree⟩ := hheader
  have htail : ('<' :: digits ++ ['>'] ++ text).tail = digits ++ '>' :: text := by simp
  have htake : (digits ++ '>' :: text).takeWhile Char.isDigit = digits := by
    rw [List.takeWhile_append_of_pos hdigits, List.takeWhile_cons_of_neg (by decide),
      List.append_nil]
  have hdrop : (digits ++ '>' :: text).dropWhile Char.isDigit = '>' :: text := by
    rw [List.dropWhile_append_of_pos hdigits, List.dropWhile_cons_of_neg (by decide)]
  rw [withoutHeader, htail, htake, hdrop, if_pos ⟨by simp, hone, hthree, rfl⟩]
  rfl

/-- Nothing is cut off from a text without a header. -/
theorem withoutHeader_eq_self {d : List Char} (h : ¬ HasHeader d) : withoutHeader d = d := by
  rw [withoutHeader, if_neg]
  rintro ⟨hhead, hone, hthree, hrest⟩
  obtain ⟨text, rfl⟩ := List.head?_eq_some_iff.mp hhead
  obtain ⟨rest, hrest⟩ := List.head?_eq_some_iff.mp hrest
  have hdigits : ∀ c ∈ text.takeWhile Char.isDigit, c.isDigit = true :=
    fun c hc => List.mem_takeWhile_imp hc
  refine h ⟨_, rest, ⟨_, rfl, hdigits, hone, hthree⟩, ?_⟩
  have hsplit := List.takeWhile_append_dropWhile (p := Char.isDigit) (l := text)
  rw [List.tail_cons] at hrest
  rw [hrest] at hsplit
  calc '<' :: text = '<' :: (text.takeWhile Char.isDigit ++ '>' :: rest) := by rw [hsplit]
    _ = '<' :: text.takeWhile Char.isDigit ++ ['>'] ++ rest := by simp

theorem withoutHeader_length_lt {d : List Char} (h : HasHeader d) :
    (withoutHeader d).length < d.length := by
  obtain ⟨h, text, hheader, rfl⟩ := h
  rw [withoutHeader_append hheader]
  obtain ⟨digits, rfl, -⟩ := hheader
  simp only [List.length_append, List.length_cons]
  omega

theorem withoutHeader_eq_self_iff {d : List Char} : withoutHeader d = d ↔ ¬ HasHeader d := by
  refine ⟨?_, withoutHeader_eq_self⟩
  intro heq hheader
  have hlt := withoutHeader_length_lt hheader
  rw [heq] at hlt
  exact lt_irrefl _ hlt

/-- A header of four characters has two digits. -/
theorem Header.two_digits {h : List Char} (hheader : Header h) (hlength : h.length = 4) :
    ∃ a b, h = ['<', a, b, '>'] ∧ a.isDigit = true ∧ b.isDigit = true := by
  obtain ⟨digits, rfl, hdigits, -⟩ := hheader
  obtain ⟨a, b, rfl⟩ : ∃ a b, digits = [a, b] := by
    apply List.length_eq_two.mp
    simpa using hlength
  exact ⟨a, b, rfl, hdigits a (by simp), hdigits b (by simp)⟩

end Header

section Received

variable {stale : Buffer} {d : List Char}

/-- A datagram that fits lies in front of a zero. -/
theorem bytes_terminate (hfits : d.length < 512) :
    (terminate d.length (stale.recv d)).bytes = d ++ '\x00' :: stale.bytes.drop (d.length + 1) := by
  have hsize := stale.size
  have hdrop : stale.bytes.drop d.length =
      stale.bytes[d.length] :: stale.bytes.drop (d.length + 1) := List.drop_eq_getElem_cons _
  rw [terminate, if_neg (by omega)]
  simp only [Buffer.set, Buffer.recv]
  rw [List.take_of_length_le (by omega), List.set_append_right _ _ le_rfl, Nat.sub_self, hdrop,
    List.set_cons_zero]

theorem takeWhile_zero (hzero : '\x00' ∉ d) (more : List Char) :
    (d ++ '\x00' :: more).takeWhile (· ≠ '\x00') = d := by
  have hall : ∀ c ∈ d, decide (c ≠ '\x00') = true := by
    intro c hc
    simpa using ne_of_mem_of_not_mem hc hzero
  rw [List.takeWhile_append_of_pos hall, List.takeWhile_cons_of_neg (by simp), List.append_nil]

/-- Without the mark of a header the whole datagram is queued. -/
theorem queuedText_whole (hfits : d.length < 512) (hzero : '\x00' ∉ d)
    (h : ¬ (d.head? = some '<' ∧ (d ++ '\x00' :: stale.bytes.drop (d.length + 1))[3]? = some '>')) :
    queuedText stale d = d := by
  have hfirst : (d ++ '\x00' :: stale.bytes.drop (d.length + 1))[0]? = some '<' ↔
      d.head? = some '<' := by
    cases d <;> simp
  rw [queuedText, messageText, bytes_terminate hfits, if_neg (by rwa [hfirst]), Buffer.cString,
    bytes_terminate hfits, List.drop_zero, takeWhile_zero hzero]

/-- With it, what is behind the first four bytes. -/
theorem queuedText_marked (hfits : d.length < 512) (hzero : '\x00' ∉ d) (hhead : d.head? = some '<')
    (hmark : d[3]? = some '>') : queuedText stale d = d.drop 4 := by
  have hlength : 3 < d.length := (List.getElem?_eq_some_iff.mp hmark).1
  have hfirst : (d ++ '\x00' :: stale.bytes.drop (d.length + 1))[0]? = some '<' := by
    rw [List.getElem?_append_left (by omega), ← hhead, List.head?_eq_getElem?]
  have hfourth : (d ++ '\x00' :: stale.bytes.drop (d.length + 1))[3]? = some '>' := by
    rw [List.getElem?_append_left hlength, hmark]
  have hzero' : '\x00' ∉ d.drop 4 := fun h => hzero (List.mem_of_mem_drop h)
  rw [queuedText, messageText, bytes_terminate hfits, if_pos ⟨hfirst, hfourth⟩, Buffer.cString,
    bytes_terminate hfits, List.drop_append_of_le_length (by omega), takeWhile_zero hzero']

/-- A buffer that makes every short datagram look as if it had a header. -/
def marked : Buffer where
  bytes := List.replicate 512 '>'
  size := List.length_replicate

/-- Behind a datagram of one or two bytes the mark is looked for in what was left there. -/
theorem queuedText_short (hshort : d.length < 3) (hhead : d.head? = some '<') :
    queuedText marked d = List.replicate 508 '>' := by
  have htake : (List.replicate 508 '>').takeWhile (· ≠ '\x00') = List.replicate 508 '>' :=
    List.takeWhile_eq_self_iff.mpr fun c hc => by simp [List.eq_of_mem_replicate hc]
  have hbytes := @bytes_terminate marked d (by omega)
  obtain ⟨text, rfl⟩ := List.head?_eq_some_iff.mp hhead
  cases text with
  | nil =>
    have hleft : marked.bytes.drop 2 = '>' :: '>' :: List.replicate 508 '>' := List.drop_replicate
    rw [List.length_singleton, hleft] at hbytes
    generalize List.replicate 508 '>' = left at *
    simp only [queuedText, messageText, Buffer.cString, List.length_singleton, hbytes]
    simpa using htake
  | cons a text =>
    obtain rfl : text = [] := by
      simp only [List.length_cons] at hshort
      exact List.length_eq_zero_iff.mp (by omega)
    have hleft : marked.bytes.drop 3 = '>' :: List.replicate 508 '>' := List.drop_replicate
    rw [show ['<', a].length = 2 from rfl, hleft] at hbytes
    generalize List.replicate 508 '>' = left at *
    simp only [queuedText, messageText, Buffer.cString, show ['<', a].length = 2 from rfl, hbytes]
    simpa using htake

end Received

/-- The queued text is that of the datagram, without its header, whatever the buffer held. -/
def OwnText (d : List Char) : Prop := ∀ stale, queuedText stale d = withoutHeader d

/-- A run on such datagrams queues their texts. -/
theorem messages_of_ownText {turns : List (Buffer × ℤ × Option (List Char))}
    (h : ∀ t ∈ turns, ∀ d, t.2.2 = some d → OwnText d) :
    messages turns = turns.flatMap fun t => t.2.2.toList.map fun d =>
      systemdMessage t.2.1 (String.ofList (withoutHeader d)) := by
  rw [messages]
  refine List.flatMap_congr ?_
  rintro ⟨stale, now, received⟩ ht
  cases received with
  | none => rfl
  | some d => simp [turn, h _ ht d rfl stale]

/-- A datagram that the program handles as it means to: its header, if it has one, has two
digits; otherwise it does not begin like one, or is long enough and has no `>` in the fourth
place. -/
def Regular (d : List Char) : Prop :=
  (∃ a b text, d = '<' :: a :: b :: '>' :: text ∧ a.isDigit = true ∧ b.isDigit = true) ∨
    d.head? ≠ some '<' ∨ (3 ≤ d.length ∧ d[3]? ≠ some '>' ∧ ¬ HasHeader d)

section Regularity

variable {d : List Char}

/-- What is behind the mark is the text without the header exactly if two digits are before it. -/
theorem drop_four_iff (hlength : 4 ≤ d.length) : d.drop 4 = withoutHeader d ↔
    ∃ a b text, d = '<' :: a :: b :: '>' :: text ∧ a.isDigit = true ∧ b.isDigit = true := by
  constructor
  · intro heq
    by_cases hheader : HasHeader d
    · obtain ⟨h, text, hheader, rfl⟩ := hheader
      rw [withoutHeader_append hheader] at heq
      have hfour : h.length = 4 := by
        have hlengths := congrArg List.length heq
        simp only [List.length_drop, List.length_append] at hlengths hlength
        omega
      obtain ⟨a, b, rfl, ha, hb⟩ := hheader.two_digits hfour
      exact ⟨a, b, text, rfl, ha, hb⟩
    · rw [withoutHeader_eq_self hheader] at heq
      have hlengths := congrArg List.length heq
      rw [List.length_drop] at hlengths
      omega
  · rintro ⟨a, b, text, rfl, ha, hb⟩
    have hheader : Header ['<', a, b, '>'] := ⟨[a, b], rfl, by simp [ha, hb], by simp⟩
    exact (withoutHeader_append hheader text).symm

theorem ownText_of_other_head (hfits : d.length < 512) (hzero : '\x00' ∉ d)
    (hhead : d.head? ≠ some '<') : OwnText d := by
  have hheader : ¬ HasHeader d := by
    rintro ⟨h, text, ⟨digits, rfl, -⟩, rfl⟩
    exact hhead rfl
  intro stale
  rw [queuedText_whole hfits hzero fun h => hhead h.1, withoutHeader_eq_self hheader]

theorem not_ownText_of_short (hshort : d.length < 3) (hhead : d.head? = some '<') :
    ¬ OwnText d := by
  intro hown
  have hle : (withoutHeader d).length ≤ d.length := by
    by_cases hheader : HasHeader d
    · exact (withoutHeader_length_lt hheader).le
    · rw [withoutHeader_eq_self hheader]
  have hlength := congrArg List.length (hown marked)
  rw [queuedText_short hshort hhead, List.length_replicate] at hlength
  omega

/-- A datagram yields its own text exactly if it is a regular one. -/
theorem ownText_iff_regular (d : List Char) (hfits : d.length < 512) (hzero : '\x00' ∉ d) :
    OwnText d ↔ Regular d := by
  by_cases hhead : d.head? = some '<'
  · by_cases hshort : d.length < 3
    · refine iff_of_false (not_ownText_of_short hshort hhead) ?_
      rintro (⟨a, b, text, rfl, -⟩ | hother | ⟨hlong, -⟩)
      · simp only [List.length_cons] at hshort
        omega
      · exact hother hhead
      · omega
    · by_cases hmark : d[3]? = some '>'
      · have hlength : 4 ≤ d.length := (List.getElem?_eq_some_iff.mp hmark).1
        have hown : OwnText d ↔ d.drop 4 = withoutHeader d := by
          rw [OwnText]
          simp only [queuedText_marked hfits hzero hhead hmark]
          exact ⟨fun h => h marked, fun h _ => h⟩
        rw [hown, drop_four_iff hlength, Regular]
        simp [hhead, hmark]
      · have hwhole : ∀ stale, queuedText stale d = d := by
          intro stale
          refine queuedText_whole hfits hzero fun h => ?_
          -- behind three bytes stands the zero
          rcases Nat.lt_or_ge 3 d.length with hlt | hge
          · exact hmark (by simpa [List.getElem?_append_left hlt] using h.2)
          · rw [List.getElem?_append_right hge] at h
            simp [show 3 - d.length = 0 by omega] at h
        have hown : OwnText d ↔ ¬ HasHeader d := by
          rw [OwnText, ← withoutHeader_eq_self_iff]
          simp only [hwhole]
          exact ⟨fun h => (h marked).symm, fun h _ => h.symm⟩
        rw [hown, Regular]
        constructor
        · intro hheader
          exact .inr (.inr ⟨by omega, hmark, hheader⟩)
        · rintro (⟨a, b, text, rfl, -⟩ | hother | ⟨-, -, hheader⟩)
          · simp at hmark
          · exact absurd hhead hother
          · exact hheader
  · exact iff_of_true (ownText_of_other_head hfits hzero hhead) (.inr (.inl hhead))

end Regularity

theorem ownText_iff_regular_su : OwnText "<34>su: failed".toList ↔ Regular "<34>su: failed".toList :=
  ownText_iff_regular _ (by decide) (by decide)

/-- A priority of one digit stays in the message, and a lone `<` is replaced by what was in the
buffer. -/
theorem not_ownText_kern : ¬ OwnText "<5>usb".toList ∧ ¬ OwnText ['<'] := by
  refine ⟨?_, not_ownText_of_short (by decide) rfl⟩
  intro h
  exact absurd (h marked) (by decide +kernel)

end Ctguard.SystemdTask
