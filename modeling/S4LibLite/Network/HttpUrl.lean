import S4LibLite.Common.CStr
import S4LibLite.Lib.Splitting
import Mathlib.Data.List.DropRight

/-!
# The parts of a URL (`parse_url.h`)

The constructor of `HTTPURL` trims the text, takes a scheme off its front, and cuts the rest at
single characters: the domain ends at the first `/`, the path begins there and ends at the first
`#`, the port is behind the first `:` of the domain, the query behind the first `?` of the path.

* `httpUrl`, the constructor;
* `UrlParts`, a URL by its parts;
* `httpUrl_cuts`, the object built from a text, once its scheme is found;
* `httpUrl_recovers_iff`, which URLs it takes apart into their parts.
-/

namespace S4LibLite
namespace Network

open Replacement Splitting

/-! ## Strings -/

/-- The characters `_trim` drops, " \t\n\r". -/
def isBlank (c : UInt8) : Bool := c == 32 || c == 9 || c == 10 || c == 13

/-- `_trim`; a text of white space stays as it is. -/
def trim (input : Bytes) : Bytes :=
  let str := if input.all isBlank then input else input.rdropWhile isBlank
  if str.all isBlank then str else str.dropWhile isBlank

/-- `::tolower` in the C locale. -/
def toLower (c : UInt8) : UInt8 := if 65 ≤ c && c ≤ 90 then c + 32 else c

/-- `_atoi`: `operator>>` reads as `strtol` does, and stays in the range of an `int`. -/
def streamAtoi (input : Bytes) : ℤ := max (-2 ^ 31) (min (2 ^ 31 - 1) (strtol input).1)

/-! ## The constructor -/

/-- `HTTPURL`. -/
structure HttpUrl where
  protocol : Bytes
  domain : Bytes
  port : UInt16
  path : Bytes
  query : Bytes
deriving DecidableEq

/-- `allowed`. -/
def allowed : List Bytes := [lit "https://", lit "http://", lit "ftp://"]

/-- The loop over `allowed`: the offset, and the protocol. -/
def findScheme (u : Bytes) : ℕ × Bytes :=
  allowed.foldl (fun s c =>
    if s.2.length = 0 ∧ u.take c.length = c then (c.length, c.take (c.length - 3)) else s) (0, [])

/-- `HTTPURL::HTTPURL`. -/
def httpUrl (url : Bytes) : HttpUrl :=
  let u := trim url
  let (offset, protocol) := findScheme u
  let defaultPort : UInt16 := if protocol = lit "https" then 443 else 80
  let slashPos := findFrom [47] u (offset + 1)
  let urlpath := slashPos.elim [47] u.drop
  let urldomain := (u.take (slashPos.getD u.length)).drop offset
  let hashPos := findFrom [35] urlpath 0
  let urlpath := hashPos.elim urlpath urlpath.take
  let colonPos := findFrom [58] urldomain 0
  let urlport := colonPos.elim [] fun colonPos => urldomain.drop (colonPos + 1)
  let urldomain := urldomain.take (colonPos.getD urldomain.length)
  let qmarkPos := findFrom [63] urlpath 0
  {
    protocol := protocol
    domain := urldomain.map toLower
    query := qmarkPos.elim [] fun qmarkPos => urlpath.drop (qmarkPos + 1)
    path := qmarkPos.elim urlpath urlpath.take
    port := if urlport.length = 0 then defaultPort else UInt16.ofInt (streamAtoi urlport) }

/-! ## URLs -/

/-- The schemes of `allowed`. -/
inductive Scheme
  | https
  | http
  | ftp
deriving DecidableEq

def Scheme.text : Scheme → Bytes
  | .https => lit "https"
  | .http => lit "http"
  | .ftp => lit "ftp"

/-- A URL by its parts, with white space around it. -/
structure UrlParts where
  lead : Bytes
  scheme : Option Scheme
  host : Bytes
  port : Option Bytes
  path : Option Bytes
  query : Option Bytes
  fragment : Option Bytes
  trail : Bytes
  isSpace_lead : ∀ c ∈ lead, isSpace c = true
  isSpace_trail : ∀ c ∈ trail, isSpace c = true
  host_ne_nil : host ≠ []
  host_chars : ∀ c ∈ host, c ∉ lit "/:?#@" ∧ isSpace c = false
  isDigit_port : ∀ s ∈ port, s ≠ [] ∧ ∀ c ∈ s, isDigit c = true
  port_range : ∀ s ∈ port, 1 ≤ decVal s ∧ decVal s ≤ 65535
  path_slash : ∀ s ∈ path, s.head? = some 47
  path_chars : ∀ s ∈ path, ∀ c ∈ s, c ∉ lit "?#" ∧ isSpace c = false
  query_chars : ∀ s ∈ query, ∀ c ∈ s, c ≠ 35 ∧ isSpace c = false
  fragment_chars : ∀ s ∈ fragment, ∀ c ∈ s, isSpace c = false

/-- An optional part behind its delimiter. -/
def behind (delimiter : Bytes) (s : Option Bytes) : Bytes := s.elim [] (delimiter ++ ·)

/-- The scheme with its delimiter. -/
def UrlParts.schemeText (p : UrlParts) : Bytes := p.scheme.elim [] fun s => s.text ++ lit "://"

/-- The query and the fragment, with their delimiters. -/
def UrlParts.tail (p : UrlParts) : Bytes :=
  behind (lit "?") p.query ++ behind (lit "#") p.fragment

/-- The URL. -/
def UrlParts.text (p : UrlParts) : Bytes :=
  p.lead ++ (p.schemeText ++ (p.host ++ (behind (lit ":") p.port ++ (behind [] p.path ++ p.tail))))
    ++ p.trail

/-- The white space in front that is not dropped: it begins with `\v` or `\f`. -/
def UrlParts.left (p : UrlParts) : Bytes := p.lead.dropWhile isBlank

/-- The white space at the end that is not dropped: it ends with `\v` or `\f`. -/
def UrlParts.right (p : UrlParts) : Bytes := p.trail.rdropWhile isBlank

/-- What stands behind the path. -/
def UrlParts.ending (p : UrlParts) : Bytes := p.tail ++ p.right

/-- What stands behind the host. -/
def UrlParts.rest (p : UrlParts) : Bytes :=
  behind (lit ":") p.port ++ (behind [] p.path ++ p.ending)

/-- What the object should be. -/
def UrlParts.expected (p : UrlParts) : HttpUrl where
  protocol := p.scheme.elim [] Scheme.text
  domain := p.host.map toLower
  port := p.port.elim (if p.scheme = some .https then 443 else 80) fun s => UInt16.ofNat (decVal s)
  path := p.path.getD (lit "/")
  query := p.query.getD []

/-- Behind the first `/` of a text, up to the next `#`. -/
def behindSlash (s : Bytes) : Bytes := before 35 (after 47 s)

/-- The URLs that are taken apart as they were put together: all white space in front is dropped;
and there is a path, and all white space behind it is dropped or belongs to the fragment; or
there is no path, and nothing stands behind the host and the port; or there is a port, and the
query is found behind a `/` of the fragment, or is empty and nothing is found. -/
def UrlParts.Recovered (p : UrlParts) : Prop :=
  p.left = [] ∧
    (p.path.isSome ∧ (p.fragment.isSome ∨ p.right = []) ∨
      p.path = none ∧ (p.ending = [] ∨
        p.port.isSome ∧ (behindSlash p.ending = [] ∧ p.query.getD [] = [] ∨
          behindSlash p.ending = 63 :: p.query.getD [])))

/-! ## Trimming -/

theorem isSpace_of_isBlank {c : UInt8} (h : isBlank c = true) : isSpace c = true := by
  rw [isBlank] at h
  simp only [Bool.or_eq_true, beq_iff_eq] at h
  rcases h with ((rfl | rfl) | rfl) | rfl <;> rfl

/-- What is no white space is not trimmed. -/
theorem isBlank_of_not_isSpace {c : UInt8} (h : isSpace c = false) : isBlank c = false := by
  by_contra hblank
  rw [isSpace_of_isBlank (Bool.eq_true_of_not_eq_false hblank)] at h
  exact Bool.noConfusion h

/-- What is dropped in front of a text that begins with something else. -/
theorem dropWhile_append_run {f : UInt8 → Bool} {t : Bytes} (ht : ∀ c ∈ t.head?, f c = false)
    (s : Bytes) : (s ++ t).dropWhile f = s.dropWhile f ++ t := by
  induction s with
  | nil =>
    have hnone := dropWhile_run (s := []) (List.forall_mem_nil _) ht
    exact hnone
  | cons a s ih =>
    rw [List.cons_append]
    by_cases ha : f a = true
    · rw [List.dropWhile_cons_of_pos ha, List.dropWhile_cons_of_pos ha, ih]
    · rw [List.dropWhile_cons_of_neg ha, List.dropWhile_cons_of_neg ha, List.cons_append]

/-- Blanks around a text go, up to the first other white space. -/
theorem trim_eq (lead trail : Bytes) {text : Bytes} (hne : text ≠ [])
    (htext : ∀ c ∈ text, isBlank c = false) :
    trim (lead ++ text ++ trail)
      = lead.dropWhile isBlank ++ (text ++ trail.rdropWhile isBlank) := by
  obtain ⟨c, hc⟩ := List.exists_mem_of_ne_nil text hne
  have hnotall : ∀ s t : Bytes, ¬ (s ++ text ++ t).all isBlank = true := by
    intro s t hall
    have hblank := List.all_eq_true.mp hall c (by simp [hc])
    rw [htext c hc] at hblank
    exact Bool.noConfusion hblank
  -- the last character of the text stops the first cut, its first one the second
  have hlast : ∀ c ∈ (lead ++ text).reverse.head?, isBlank c = false := by
    intro c hc
    rw [List.reverse_append, List.head?_append_of_ne_nil _ (by simpa using hne)] at hc
    exact htext c (List.mem_reverse.mp (List.mem_of_mem_head? hc))
  have hend : (lead ++ text ++ trail).rdropWhile isBlank
      = lead ++ text ++ trail.rdropWhile isBlank := by
    rw [List.rdropWhile, List.reverse_append, dropWhile_append_run hlast, List.reverse_append,
      List.reverse_reverse, List.rdropWhile]
  have hfirst : ∀ c ∈ (text ++ trail.rdropWhile isBlank).head?, isBlank c = false := by
    intro c hc
    rw [List.head?_append_of_ne_nil _ hne] at hc
    exact htext c (List.mem_of_mem_head? hc)
  rw [trim, if_neg (hnotall lead trail), hend, if_neg (hnotall lead _), List.append_assoc,
    dropWhile_append_run hfirst]

/-! ## The cuts -/

/-- Where the path begins. -/
theorem slash_path (scheme rest : Bytes) (h : UInt8) :
    (findFrom [47] (scheme ++ h :: rest) (scheme.length + 1)).elim [47]
      (scheme ++ h :: rest).drop = 47 :: after 47 rest := by
  have hsplit : scheme ++ h :: rest = (scheme ++ [h]) ++ rest := by simp
  have hlen : scheme.length + 1 = (scheme ++ [h]).length := by simp
  rw [hsplit, hlen, findFrom_append]
  by_cases hmem : 47 ∈ rest
  · obtain ⟨p, t, rfl, hp⟩ := List.eq_append_cons_of_mem hmem
    rw [findFrom_cut hp, after_cut hp, Option.map_some, Option.elim_some, ← List.drop_drop,
      List.drop_left, List.drop_left]
  · rw [findFrom_of_notMem hmem, after_of_notMem hmem, Option.map_none, Option.elim_none]

/-- Where the domain ends. -/
theorem slash_domain {scheme rest : Bytes} {h : UInt8} (hh : h ≠ 47) :
    ((scheme ++ h :: rest).take ((findFrom [47] (scheme ++ h :: rest)
      (scheme.length + 1)).getD (scheme ++ h :: rest).length)).drop scheme.length
      = before 47 (h :: rest) := by
  have hsplit : scheme ++ h :: rest = (scheme ++ [h]) ++ rest := by simp
  have hlen : scheme.length + 1 = (scheme ++ [h]).length := by simp
  have hhost : 47 ∉ [h] := fun hmem => hh (List.mem_singleton.mp hmem).symm
  have hfront : before 47 (h :: rest) = h :: before 47 rest := before_append hhost rest
  rw [hfront, hsplit, hlen, findFrom_append]
  by_cases hmem : 47 ∈ rest
  · obtain ⟨p, t, rfl, hp⟩ := List.eq_append_cons_of_mem hmem
    rw [findFrom_cut hp, before_cut hp, Option.map_some, Option.getD_some,
      List.take_length_add_append, List.take_left, List.append_assoc, List.drop_left,
      List.singleton_append]
  · rw [findFrom_of_notMem hmem, before_of_notMem hmem, Option.map_none, Option.getD_none,
      List.take_length, List.append_assoc, List.drop_left, List.singleton_append]

/-- What a port's text stands for. -/
def portOf (protocol urlport : Bytes) : UInt16 :=
  if urlport.length = 0 then if protocol = lit "https" then 443 else 80
  else UInt16.ofInt (streamAtoi urlport)

/-- **The cuts** of a text with a host, behind its scheme. -/
theorem httpUrl_cuts {url scheme protocol rest : Bytes} {h : UInt8} (hh : h ≠ 47)
    (htrim : trim url = scheme ++ h :: rest)
    (hscheme : findScheme (scheme ++ h :: rest) = (scheme.length, protocol)) :
    httpUrl url = {
      protocol := protocol
      domain := (before 58 (before 47 (h :: rest))).map toLower
      port := portOf protocol (after 58 (before 47 (h :: rest)))
      path := 47 :: before 63 (behindSlash (h :: rest))
      query := after 63 (behindSlash (h :: rest)) } := by
  have hhost : 47 ∉ [h] := fun hmem => hh (List.mem_singleton.mp hmem).symm
  have hbehind : behindSlash (h :: rest) = before 35 (after 47 rest) := by
    rw [behindSlash, ← List.singleton_append, after_append hhost]
  have hhash : before 35 (47 :: after 47 rest) = 47 :: behindSlash (h :: rest) := by
    rw [hbehind, ← List.singleton_append, before_append (by decide), List.singleton_append]
  have hslash : (63 : UInt8) ∉ [(47 : UInt8)] := by decide
  have hpath : ∀ s : Bytes, before 63 (47 :: s) = 47 :: before 63 s := before_append hslash
  have hquery : ∀ s : Bytes, after 63 (47 :: s) = after 63 s := after_append hslash
  rw [httpUrl]
  simp only [htrim, hscheme, slash_path, slash_domain hh, elim_take, take_getD, elim_drop, hhash,
    hpath, hquery, portOf]

/-! ## The parts -/

section Parts

variable {p : UrlParts}

theorem mem_behind {delimiter : Bytes} {s : Option Bytes} {c : UInt8}
    (h : c ∈ behind delimiter s) : c ∈ delimiter ∨ ∃ t ∈ s, c ∈ t := by
  cases s with
  | none => exact absurd h List.not_mem_nil
  | some t => exact (List.mem_append.mp h).imp_right fun hc => ⟨t, rfl, hc⟩

/-- The query or the fragment is behind its delimiter. -/
theorem tail_head : ∀ c ∈ p.tail.head?, c = 63 ∨ c = 35 := by
  rw [UrlParts.tail]
  cases p.query with
  | some q =>
    rintro c ⟨⟩
    exact Or.inl rfl
  | none =>
    cases p.fragment with
    | some f =>
      rintro c ⟨⟩
      exact Or.inr rfl
    | none =>
      rintro c ⟨⟩

theorem query_of_tail_nil (h : p.tail = []) : p.query = none := by
  rw [UrlParts.tail] at h
  cases hquery : p.query with
  | none => rfl
  | some q =>
    rw [hquery] at h
    exact absurd h (List.cons_ne_nil _ _)

theorem isSpace_right : ∀ c ∈ p.right, isSpace c = true := fun c hc =>
  p.isSpace_trail c ((List.rdropWhile_prefix isBlank _).subset hc)

/-- What is left of the white space is behind them. -/
theorem ending_head : ∀ c ∈ p.ending.head?, c = 63 ∨ c = 35 ∨ isSpace c = true := by
  rw [UrlParts.ending]
  cases htail : p.tail with
  | nil => exact fun c hc => Or.inr (Or.inr (isSpace_right c (List.mem_of_mem_head? hc)))
  | cons a t =>
    intro c hc
    have ha := tail_head (p := p) c (by rw [htail]; exact hc)
    exact ha.imp_right Or.inl

theorem path_head : ∀ c ∈ (behind [] p.path ++ p.ending).head?,
    c = 47 ∨ c = 63 ∨ c = 35 ∨ isSpace c = true := by
  cases hpath : p.path with
  | none => exact fun c hc => Or.inr (ending_head c hc)
  | some s =>
    intro c hc
    have hslash := p.path_slash s hpath
    obtain ⟨t, rfl⟩ := List.head?_eq_some_iff.mp hslash
    cases hc
    exact Or.inl rfl

/-- What ends a host. -/
def endsHost (c : UInt8) : Bool := decide (c ∈ lit "/:?#@") || isSpace c

/-- What stands behind the host begins with a delimiter, or with white space. -/
theorem rest_head : ∀ c ∈ p.rest.head?, endsHost c = true := by
  rw [UrlParts.rest]
  cases p.port with
  | some s =>
    rintro c ⟨⟩
    decide
  | none =>
    intro c hc
    rw [endsHost, Bool.or_eq_true]
    rcases path_head c hc with rfl | rfl | rfl | hspace
    · exact Or.inl (by decide)
    · exact Or.inl (by decide)
    · exact Or.inl (by decide)
    · exact Or.inr hspace

/-- It is no colon with two slashes. -/
theorem rest_ne (v : Bytes) : p.rest ≠ lit "://" ++ v := by
  intro h
  rw [UrlParts.rest] at h
  cases hport : p.port with
  | some s =>
    rw [hport] at h
    obtain ⟨hne, hdigits⟩ := p.isDigit_port s hport
    obtain ⟨d, t, rfl⟩ := List.exists_cons_of_ne_nil hne
    have hslash : d = 47 := (List.cons.inj (List.cons.inj h).2).1
    exact absurd (hdigits d List.mem_cons_self) (by rw [hslash]; decide)
  | none =>
    rw [hport] at h
    have hhead : (58 : UInt8) ∈ (behind [] p.path ++ p.ending).head? := by
      change behind [] p.path ++ p.ending = 58 :: _ at h
      rw [h]
      rfl
    rcases path_head 58 hhead with hc | hc | hc | hc <;> exact absurd hc (by decide)

theorem host_notMem {c : UInt8} (hc : c ∈ lit "/:?#@") : c ∉ p.host := fun hmem =>
  (p.host_chars c hmem).1 hc

theorem endsHost_host {c : UInt8} (hc : c ∈ p.host) : endsHost c = false := by
  obtain ⟨hmem, hspace⟩ := p.host_chars c hc
  rw [endsHost, hspace, decide_eq_false hmem, Bool.or_false]

/-- A text with a host, and no scheme, does not begin with one. -/
theorem host_ne {w v : Bytes} (hw : ∀ c ∈ w, endsHost c = false) :
    p.host ++ p.rest ≠ w ++ (lit "://" ++ v) := by
  intro h
  have hhost := takeWhile_run (p := fun c => !endsHost c) (s := p.host) (t := p.rest)
    (fun c hc => by rw [endsHost_host hc, Bool.not_false])
    fun c hc => by rw [rest_head c hc, Bool.not_true]
  have hword := takeWhile_run (p := fun c => !endsHost c) (s := w) (t := lit "://" ++ v)
    (fun c hc => by rw [hw c hc, Bool.not_false]) (by rintro c ⟨⟩; decide)
  rw [h, hword] at hhost
  rw [hhost] at h
  exact rest_ne v (List.append_cancel_left h)

theorem take_ne {w : Bytes} (hw : ∀ c ∈ w, endsHost c = false) (n : ℕ) :
    (p.host ++ p.rest).take n ≠ w ++ lit "://" := by
  intro h
  refine host_ne (p := p) (v := (p.host ++ p.rest).drop n) hw ?_
  rw [← List.append_assoc, ← h, List.take_append_drop]

/-- A text that begins with none of the schemes. -/
theorem findScheme_of_ne {u : Bytes} (h : ∀ c ∈ allowed, u.take c.length ≠ c) :
    findScheme u = (0, []) := by
  have hstep : ∀ cs : List Bytes, (∀ c ∈ cs, u.take c.length ≠ c) →
      cs.foldl (fun s c => if s.2.length = 0 ∧ u.take c.length = c then
        (c.length, c.take (c.length - 3)) else s) ((0, []) : ℕ × Bytes) = (0, []) := by
    intro cs
    induction cs with
    | nil => exact fun _ => rfl
    | cons c cs ih =>
      intro hcs
      obtain ⟨hc, hcs⟩ := List.forall_mem_cons.mp hcs
      rw [List.foldl_cons, if_neg fun h => hc h.2, ih hcs]
  exact hstep allowed h

/-- The scheme is found. -/
theorem findScheme_eq : findScheme (p.schemeText ++ (p.host ++ p.rest))
    = (p.schemeText.length, p.scheme.elim [] Scheme.text) := by
  rw [UrlParts.schemeText]
  cases p.scheme with
  | some s =>
    cases s with
    | https => rfl
    | http => rfl
    | ftp => rfl
  | none =>
    -- the host ends at the first delimiter, and no "://" stands there
    refine findScheme_of_ne fun c hc => ?_
    rw [allowed, List.mem_cons, List.mem_cons, List.mem_singleton] at hc
    rcases hc with rfl | rfl | rfl
    · exact take_ne (w := lit "https") (List.forall_iff_forall_mem.mp (by decide)) _
    · exact take_ne (w := lit "http") (List.forall_iff_forall_mem.mp (by decide)) _
    · exact take_ne (w := lit "ftp") (List.forall_iff_forall_mem.mp (by decide)) _

theorem isSpace_behind {delimiter : Bytes} {s : Option Bytes}
    (hdelimiter : ∀ c ∈ delimiter, isSpace c = false)
    (hs : ∀ t ∈ s, ∀ c ∈ t, isSpace c = false) : ∀ c ∈ behind delimiter s, isSpace c = false := by
  intro c hc
  rcases mem_behind hc with hc | ⟨t, ht, hc⟩
  · exact hdelimiter c hc
  · exact hs t ht c hc

/-- No part has white space. -/
theorem text_chars : ∀ c ∈ p.schemeText ++
    (p.host ++ (behind (lit ":") p.port ++ (behind [] p.path ++ p.tail))), isSpace c = false := by
  have hscheme : ∀ c ∈ p.schemeText, isSpace c = false := by
    rw [UrlParts.schemeText]
    cases p.scheme with
    | none => exact List.forall_mem_nil _
    | some s => cases s <;> exact List.forall_iff_forall_mem.mp (by decide)
  have hport : ∀ c ∈ behind (lit ":") p.port, isSpace c = false :=
    isSpace_behind (List.forall_mem_singleton.mpr rfl) fun s hs c hc =>
      isSpace_of_isDigit ((p.isDigit_port s hs).2 c hc)
  have hpath : ∀ c ∈ behind [] p.path, isSpace c = false :=
    isSpace_behind (List.forall_mem_nil _) fun s hs c hc => (p.path_chars s hs c hc).2
  have hquery : ∀ c ∈ behind (lit "?") p.query, isSpace c = false :=
    isSpace_behind (List.forall_mem_singleton.mpr rfl) fun s hs c hc => (p.query_chars s hs c hc).2
  have hfragment : ∀ c ∈ behind (lit "#") p.fragment, isSpace c = false :=
    isSpace_behind (List.forall_mem_singleton.mpr rfl) p.fragment_chars
  rw [UrlParts.tail]
  simp only [List.forall_mem_append]
  exact ⟨hscheme, fun c hc => (p.host_chars c hc).2, hport, hpath, hquery, hfragment⟩

/-- What is left when the blanks are dropped. -/
theorem trim_text : trim p.text = p.left ++ (p.schemeText ++ (p.host ++ p.rest)) := by
  have hne : p.schemeText ++
      (p.host ++ (behind (lit ":") p.port ++ (behind [] p.path ++ p.tail))) ≠ [] := by
    simp [p.host_ne_nil]
  rw [UrlParts.text, trim_eq _ _ hne fun c hc => isBlank_of_not_isSpace (text_chars c hc),
    UrlParts.rest, UrlParts.ending, UrlParts.left, UrlParts.right]
  simp only [List.append_assoc]

/-- **The cuts of a URL** in front of which all white space is dropped. -/
theorem httpUrl_text (hleft : p.left = []) : httpUrl p.text = {
    protocol := p.scheme.elim [] Scheme.text
    domain := (before 58 (p.host ++ before 47 p.rest)).map toLower
    port := portOf (p.scheme.elim [] Scheme.text) (after 58 (p.host ++ before 47 p.rest))
    path := 47 :: before 63 (behindSlash p.rest)
    query := after 63 (behindSlash p.rest) } := by
  obtain ⟨h, host, hhost⟩ := List.exists_cons_of_ne_nil p.host_ne_nil
  have htrim := trim_text (p := p)
  have hslash : 47 ∉ p.host := host_notMem (by decide)
  have hbefore : before 47 (p.host ++ p.rest) = p.host ++ before 47 p.rest :=
    before_append hslash _
  have hbehind : behindSlash (p.host ++ p.rest) = behindSlash p.rest := by
    rw [behindSlash, after_append hslash, ← behindSlash]
  have hscheme := findScheme_eq (p := p)
  rw [hleft, List.nil_append] at htrim
  rw [hhost, List.cons_append] at hbefore hbehind htrim hscheme
  have hh : h ≠ 47 := by
    rintro rfl
    exact hslash (hhost ▸ List.mem_cons_self)
  rw [httpUrl_cuts hh htrim hscheme, hbefore, hbehind, ← hhost]

theorem isSpace_iff {c : UInt8} : isSpace c = true ↔
    c.toNat = 32 ∨ 9 ≤ c.toNat ∧ c.toNat ≤ 13 := by
  rw [isSpace, Bool.or_eq_true, Bool.and_eq_true, beq_iff_eq, decide_eq_true_eq, decide_eq_true_eq,
    UInt8.le_iff_toNat_le, UInt8.le_iff_toNat_le, ← UInt8.toNat_inj]
  rfl

theorem isSpace_toLower (c : UInt8) : isSpace (toLower c) = isSpace c := by
  rw [toLower]
  split
  · rename_i hupper
    rw [Bool.and_eq_true, decide_eq_true_eq, decide_eq_true_eq, UInt8.le_iff_toNat_le,
      UInt8.le_iff_toNat_le, show (65 : UInt8).toNat = 65 from rfl,
      show (90 : UInt8).toNat = 90 from rfl] at hupper
    have hlower : (c + 32).toNat = c.toNat + 32 := by
      rw [UInt8.toNat_add, show (32 : UInt8).toNat = 32 from rfl]
      omega
    rw [Bool.eq_iff_iff, isSpace_iff, isSpace_iff, hlower]
    omega
  · rfl

/-- White space in front that is not dropped hides the scheme, and stays in the domain. -/
theorem domain_ne_of_left (hleft : p.left ≠ []) :
    (httpUrl p.text).domain ≠ p.host.map toLower := by
  obtain ⟨c, left, hcons⟩ := List.exists_cons_of_ne_nil hleft
  have hspace : isSpace c = true := by
    refine p.isSpace_lead c ((List.dropWhile_suffix isBlank).subset ?_)
    rw [← UrlParts.left, hcons]
    exact List.mem_cons_self
  have htrim := trim_text (p := p)
  rw [hcons, List.cons_append] at htrim
  have hscheme := findScheme_of_ne (u := c :: (left ++ (p.schemeText ++ (p.host ++ p.rest)))) <| by
    intro w hw hfront
    have hw' : ∀ a ∈ w.head?, isSpace a = false := by
      rw [allowed, List.mem_cons, List.mem_cons, List.mem_singleton] at hw
      rcases hw with rfl | rfl | rfl <;> (rintro a ⟨⟩; rfl)
    rw [hw' c (by
      rw [← hfront]
      rw [allowed, List.mem_cons, List.mem_cons, List.mem_singleton] at hw
      rcases hw with rfl | rfl | rfl <;> rfl)] at hspace
    exact Bool.noConfusion hspace
  have hslash : 47 ∉ [c] := by
    rintro hmem
    rw [← List.mem_singleton.mp hmem] at hspace
    exact Bool.noConfusion hspace
  have hcolon : 58 ∉ [c] := by
    rintro hmem
    rw [← List.mem_singleton.mp hmem] at hspace
    exact Bool.noConfusion hspace
  rw [@httpUrl_cuts _ [] _ _ _ (fun h => hslash (List.mem_singleton.mpr h.symm)) htrim hscheme]
  intro hdomain
  have hmem : toLower c ∈ p.host.map toLower := by
    rw [← hdomain, ← List.singleton_append, before_append hslash, before_append hcolon]
    exact List.mem_map_of_mem List.mem_cons_self
  obtain ⟨d, hd, hsame⟩ := List.mem_map.mp hmem
  have hno := (p.host_chars d hd).2
  rw [← isSpace_toLower, hsame, isSpace_toLower, hspace] at hno
  exact Bool.noConfusion hno

/-! ## The domain and the port -/

/-- A port's digits are read, whatever stands behind them. -/
theorem portOf_digits {s x : Bytes} (protocol : Bytes) (hne : s ≠ [])
    (hs : ∀ c ∈ s, isDigit c = true) (hrange : decVal s ≤ 65535)
    (hx : ∀ c ∈ x.head?, isDigit c = false) :
    portOf protocol (s ++ x) = UInt16.ofNat (decVal s) := by
  have hclamp : max (-2 ^ 31) (min (2 ^ 31 - 1) (clampLong (decVal s))) = (decVal s : ℤ) := by
    rw [clampLong]
    omega
  rw [portOf, if_neg (by simp [hne]), streamAtoi, strtol_digits hne hs hx, hclamp,
    UInt16.ofInt, Int.emod_eq_of_lt (Int.natCast_nonneg _) (by omega), Int.toNat_natCast]

theorem port_notMem (c : UInt8) (hc : c ≠ 58) (hdigit : isDigit c = false) :
    c ∉ behind (lit ":") p.port := by
  intro hmem
  rcases mem_behind hmem with hmem | ⟨s, hs, hmem⟩
  · exact hc (List.mem_singleton.mp hmem)
  · rw [(p.isDigit_port s hs).2 c hmem] at hdigit
    exact Bool.noConfusion hdigit

/-- What is left of the domain behind the host and the port. -/
def UrlParts.surplus (p : UrlParts) : Bytes := before 47 (behind [] p.path ++ p.ending)

theorem before_rest : before 47 p.rest = behind (lit ":") p.port ++ p.surplus :=
  before_append (port_notMem 47 (by decide) rfl) _

theorem behindSlash_rest : behindSlash p.rest = behindSlash (behind [] p.path ++ p.ending) := by
  rw [UrlParts.rest, behindSlash, after_append (port_notMem 47 (by decide) rfl), ← behindSlash]

theorem surplus_head : ∀ c ∈ p.surplus.head?, c = 63 ∨ c = 35 ∨ isSpace c = true := by
  intro c hc
  rw [UrlParts.surplus] at hc
  cases hrest : behind [] p.path ++ p.ending with
  | nil =>
    rw [hrest] at hc
    exact absurd hc (by simp)
  | cons a t =>
    rw [hrest] at hc
    rcases path_head a (by rw [hrest]; rfl) with rfl | ha
    · rw [before_self] at hc
      exact absurd hc (by simp)
    · have hslash : 47 ∉ [a] := by
        rw [List.mem_singleton]
        rintro rfl
        rcases ha with ha | ha | ha <;> exact absurd ha (by decide)
      have hfront : before 47 (a :: t) = a :: before 47 t := before_append hslash t
      rw [hfront] at hc
      cases hc
      exact ha

/-- With a port, or without a surplus, the domain and the port are found. -/
theorem domain_port (h : p.port.isSome ∨ p.surplus = []) :
    before 58 (p.host ++ before 47 p.rest) = p.host ∧
      portOf (p.scheme.elim [] Scheme.text) (after 58 (p.host ++ before 47 p.rest))
        = p.expected.port := by
  have hcolon : 58 ∉ p.host := host_notMem (by decide)
  rw [before_rest]
  cases hport : p.port with
  | some s =>
    obtain ⟨hne, hs⟩ := p.isDigit_port s hport
    have hrest : p.host ++ (behind (lit ":") (some s) ++ p.surplus)
        = p.host ++ 58 :: (s ++ p.surplus) := rfl
    rw [hrest, before_cut hcolon, after_cut hcolon]
    refine ⟨rfl, ?_⟩
    rw [portOf_digits _ hne hs (p.port_range s hport).2, UrlParts.expected, hport, Option.elim_some]
    intro c hc
    rcases surplus_head c hc with rfl | rfl | hspace
    · rfl
    · rfl
    · by_contra hdigit
      rw [isSpace_of_isDigit (Bool.eq_true_of_not_eq_false hdigit)] at hspace
      exact Bool.noConfusion hspace
  | none =>
    rw [hport] at h
    have hrest : p.host ++ (behind (lit ":") none ++ p.surplus) = p.host := by
      rw [h.resolve_left (by decide), behind, Option.elim_none, List.append_nil, List.append_nil]
    rw [hrest, before_of_notMem hcolon, after_of_notMem hcolon]
    refine ⟨rfl, ?_⟩
    rw [UrlParts.expected, hport, Option.elim_none]
    cases p.scheme with
    | none => rfl
    | some s => cases s <;> rfl

/-- Without a port the surplus stays in the domain. -/
theorem domain_ne (hport : p.port = none) (hsurplus : p.surplus ≠ []) :
    (before 58 (p.host ++ before 47 p.rest)).map toLower ≠ p.host.map toLower := by
  obtain ⟨a, t, hat⟩ := List.exists_cons_of_ne_nil hsurplus
  have hcolon : 58 ∉ [a] := by
    rw [List.mem_singleton]
    rintro rfl
    rcases surplus_head 58 (by rw [hat]; rfl) with ha | ha | ha <;> exact absurd ha (by decide)
  have hfront : before 58 (a :: t) = a :: before 58 t := before_append hcolon t
  rw [before_rest, hport, behind, Option.elim_none, List.nil_append,
    before_append (host_notMem (by decide)), hat, hfront]
  intro h
  -- the domain is longer than the host
  have hlen := congrArg List.length h
  rw [List.length_map, List.length_map, List.length_append, List.length_cons] at hlen
  omega

/-! ## The path and the query -/

/-- What the first `/` and the next `#` leave is the query, with a path of nothing else. -/
theorem query_found_iff (y q : Bytes) :
    before 63 y = [] ∧ after 63 y = q ↔ y = [] ∧ q = [] ∨ y = 63 :: q := by
  rw [before_eq_nil_iff]
  constructor
  · rintro ⟨rfl | h, rfl⟩
    · exact Or.inl ⟨rfl, after_nil⟩
    · exact Or.inr h
  · rintro (⟨rfl, rfl⟩ | rfl)
    · exact ⟨Or.inl rfl, after_nil⟩
    · rw [after_self]
      exact ⟨Or.inr rfl, rfl⟩

/-- White space holds no delimiter. -/
theorem right_notMem {c : UInt8} (hc : isSpace c = false) : c ∉ p.right := by
  intro hmem
  rw [isSpace_right c hmem] at hc
  exact Bool.noConfusion hc

/-- The white space at the end that is not dropped, and not in the fragment. -/
def UrlParts.outside (p : UrlParts) : Bytes := if p.fragment.isSome then [] else p.right

theorem outside_eq_nil_iff : p.outside = [] ↔ p.fragment.isSome ∨ p.right = [] := by
  rw [UrlParts.outside]
  split
  · exact iff_of_true rfl (Or.inl ‹_›)
  · exact (or_iff_right ‹_›).symm

theorem outside_notMem {c : UInt8} (hc : isSpace c = false) : c ∉ p.outside := by
  rw [UrlParts.outside]
  split
  · exact List.not_mem_nil
  · exact right_notMem hc

/-- What a path ends in: its query, and white space. -/
theorem behindSlash_path {t : Bytes} (hpath : p.path = some (47 :: t)) :
    p.surplus = [] ∧ behindSlash p.rest = t ++ (behind (lit "?") p.query ++ p.outside) := by
  have hchars : 35 ∉ t := fun hmem =>
    (p.path_chars _ hpath 35 (List.mem_cons_of_mem _ hmem)).1 (by decide)
  have hrest : behind [] p.path ++ p.ending = 47 :: (t ++ p.ending) := by
    rw [hpath]
    rfl
  have hquery : 35 ∉ behind (lit "?") p.query := by
    intro hmem
    rcases mem_behind hmem with hmem | ⟨q, hq, hmem⟩
    · exact absurd hmem (by decide)
    · exact (p.query_chars q hq 35 hmem).1 rfl
  have hfragment : before 35 (behind (lit "#") p.fragment ++ p.right) = p.outside := by
    rw [UrlParts.outside]
    cases p.fragment with
    | none => exact before_of_notMem (right_notMem rfl)
    | some f => exact before_self _
  refine ⟨by rw [UrlParts.surplus, hrest, before_self], ?_⟩
  -- the path begins at the first `/`, and the query ends at the first `#`
  rw [behindSlash_rest, hrest, behindSlash, after_self, UrlParts.ending, UrlParts.tail,
    before_append hchars, List.append_assoc, before_append hquery, hfragment]

/-- A path of the URL is found, and the query behind it, unless white space stays with them. -/
theorem path_query {s : Bytes} (hpath : p.path = some s) :
    (47 :: before 63 (behindSlash p.rest) = p.path.getD (lit "/") ∧
      after 63 (behindSlash p.rest) = p.query.getD []) ↔ p.fragment.isSome ∨ p.right = [] := by
  obtain ⟨t, rfl⟩ := List.head?_eq_some_iff.mp (p.path_slash s hpath)
  have hchars : 63 ∉ t := fun hmem =>
    (p.path_chars _ hpath 63 (List.mem_cons_of_mem _ hmem)).1 (by decide)
  rw [(behindSlash_path hpath).2, hpath, Option.getD_some, before_append hchars,
    after_append hchars, List.cons.injEq, and_iff_right rfl, ← outside_eq_nil_iff]
  cases p.query with
  | none =>
    have houtside : 63 ∉ p.outside := outside_notMem rfl
    rw [behind, Option.elim_none, List.nil_append, before_of_notMem houtside,
      after_of_notMem houtside, List.append_right_eq_self, Option.getD_none, and_iff_left rfl]
  | some q =>
    have hcut : behind (lit "?") (some q) ++ p.outside = 63 :: (q ++ p.outside) := rfl
    rw [hcut, before_self, after_self, List.append_nil, Option.getD_some, and_iff_right rfl,
      List.append_right_eq_self]

/-- Without a path, what stands behind the host and the port is in the domain, up to a `/`. -/
theorem surplus_eq_nil_iff (hpath : p.path = none) : p.surplus = [] ↔ p.ending = [] := by
  have hrest : behind [] p.path ++ p.ending = p.ending := by
    rw [hpath]
    rfl
  rw [UrlParts.surplus, hrest, before_eq_nil_iff]
  refine or_iff_left fun hslash => ?_
  rcases ending_head 47 (by rw [hslash]; rfl) with h | h | h <;> exact absurd h (by decide)

/-- Without a path, what is found behind a `/` is taken for the path and the query. -/
theorem path_query_none (hpath : p.path = none) :
    (47 :: before 63 (behindSlash p.rest) = p.path.getD (lit "/") ∧
      after 63 (behindSlash p.rest) = p.query.getD []) ↔
      behindSlash p.ending = [] ∧ p.query.getD [] = [] ∨
        behindSlash p.ending = 63 :: p.query.getD [] := by
  have hrest : behindSlash p.rest = behindSlash p.ending := by
    rw [behindSlash_rest, hpath]
    rfl
  have hslash : p.path.getD (lit "/") = [47] := by
    rw [hpath]
    rfl
  rw [hrest, hslash, ← query_found_iff, List.cons.injEq, and_iff_right rfl]

/-! ## The object -/

theorem httpUrl_eq_iff (hleft : p.left = []) : httpUrl p.text = p.expected ↔
    ((before 58 (p.host ++ before 47 p.rest)).map toLower = p.host.map toLower ∧
      portOf (p.scheme.elim [] Scheme.text) (after 58 (p.host ++ before 47 p.rest))
        = p.expected.port) ∧
      47 :: before 63 (behindSlash p.rest) = p.path.getD (lit "/") ∧
      after 63 (behindSlash p.rest) = p.query.getD [] := by
  rw [httpUrl_text hleft]
  unfold UrlParts.expected
  rw [HttpUrl.mk.injEq]
  simp only [true_and, and_assoc]

/-- With a path only white space at the end can be in the way. -/
theorem recovers_path_iff (hleft : p.left = []) {s : Bytes} (hpath : p.path = some s) :
    httpUrl p.text = p.expected ↔ p.fragment.isSome ∨ p.right = [] := by
  obtain ⟨t, ht⟩ := List.head?_eq_some_iff.mp (p.path_slash s hpath)
  obtain ⟨hdomain, hport⟩ := domain_port (Or.inr (behindSlash_path (ht ▸ hpath)).1)
  rw [httpUrl_eq_iff hleft, and_iff_right ⟨congrArg _ hdomain, hport⟩, path_query hpath]

/-- Without a path a port keeps what stands behind it out of the domain. -/
theorem recovers_none_iff (hleft : p.left = []) (hpath : p.path = none) :
    httpUrl p.text = p.expected ↔ p.ending = [] ∨
      p.port.isSome ∧ (behindSlash p.ending = [] ∧ p.query.getD [] = [] ∨
        behindSlash p.ending = 63 :: p.query.getD []) := by
  rw [httpUrl_eq_iff hleft, path_query_none hpath]
  have hnil : p.ending = [] → behindSlash p.ending = [] ∧ p.query.getD [] = [] := by
    intro hending
    rw [hending, query_of_tail_nil (List.append_eq_nil_iff.mp hending).1]
    exact ⟨rfl, rfl⟩
  by_cases hport : p.port.isSome
  · obtain ⟨hdomain, hfound⟩ := domain_port (Or.inl hport)
    rw [and_iff_right ⟨congrArg _ hdomain, hfound⟩, and_iff_right hport, iff_or_self]
    exact fun hending => Or.inl (hnil hending)
  · have hportNone : p.port = none := Option.not_isSome_iff_eq_none.mp hport
    simp only [hport, Bool.false_eq_true, false_and, or_false]
    by_cases hending : p.ending = []
    · obtain ⟨hdomain, hfound⟩ := domain_port (Or.inr ((surplus_eq_nil_iff hpath).mpr hending))
      exact iff_of_true ⟨⟨congrArg _ hdomain, hfound⟩, Or.inl (hnil hending)⟩ hending
    · refine iff_of_false (fun h => ?_) hending
      exact domain_ne hportNone (fun h => hending ((surplus_eq_nil_iff hpath).mp h)) h.1.1

end Parts

/-- **Which URLs are taken apart into their parts.** -/
theorem httpUrl_recovers_iff (p : UrlParts) : httpUrl p.text = p.expected ↔ p.Recovered := by
  rw [UrlParts.Recovered]
  by_cases hleft : p.left = []
  · rw [and_iff_right hleft]
    cases hpath : p.path with
    | some s =>
      rw [recovers_path_iff hleft hpath]
      simp
    | none =>
      rw [recovers_none_iff hleft hpath]
      simp
  · refine iff_of_false (fun h => ?_) fun h => hleft h.1
    exact domain_ne_of_left hleft (congrArg HttpUrl.domain h)

/-- A host and a query. -/
def hostQuery : UrlParts where
  lead := []
  scheme := some .http
  host := lit "host"
  port := none
  path := none
  query := some (lit "a=b")
  fragment := none
  trail := []
  isSpace_lead := List.forall_mem_nil _
  isSpace_trail := List.forall_mem_nil _
  host_ne_nil := by decide
  host_chars := List.forall_iff_forall_mem.mp (by decide)
  isDigit_port := by decide
  port_range := by decide
  path_slash := by decide
  path_chars := by decide
  query_chars := by
    intro s hs
    cases hs
    exact List.forall_iff_forall_mem.mp (by decide)
  fragment_chars := by decide

/-- The query ends up in the domain. -/
theorem httpUrl_query_in_domain : hostQuery.text = lit "http://host?a=b" ∧
    (httpUrl hostQuery.text).domain = lit "host?a=b" ∧
    httpUrl hostQuery.text ≠ hostQuery.expected := by
  decide

end Network
end S4LibLite
