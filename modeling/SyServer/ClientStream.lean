import SyServer.OneResponse

/-! # What a client reads off its connection

A connection that is kept carries one response behind the other, and nothing but the lengths in their
heads separates them.  `clientStream` is all that a client has been sent, bytes of `sb` and parts of the
files of its requests in the order in which they went out.  A client that reads it response by response
(`readStream`) finds one for each request that is over, and then the beginning of one
(`client_decodes`). -/

namespace SyServer

open Message (readStream readStream_messages readLines_stable)
open Transition (Reach exec along_true exists_of_any)

/-! ### Reading a response off a stream -/

section read

variable {bs rest body : List UInt8} {n : ℕ}

/-- A response is read the same way whatever follows it. -/
theorem readResponse_stable (h : readResponse bs = some (n, body)) :
    readResponse (bs ++ rest) = some (n, body ++ rest) := by
  unfold readResponse at h ⊢
  cases hblock : Message.readBlock bs with
  | none =>
      rw [hblock] at h
      cases h
  | some p =>
      obtain ⟨lines, body'⟩ := p
      have hstable : Message.readBlock (bs ++ rest) = some (lines, body' ++ rest) := readLines_stable hblock
      rw [hblock] at h
      rw [hstable]
      cases lines with
      | nil => cases h
      | cons status fields =>
          dsimp only at h ⊢
          obtain ⟨hhttp, h⟩ := Option.ite_none_right_eq_some.mp h
          rw [if_pos hhttp]
          generalize fields.filter (lengthKey.isPrefixOf ·) = lengths at h
          match lengths with
          | [field] =>
              obtain ⟨k, hk, he⟩ := Option.map_eq_some_iff.mp h
              cases he
              show (Message.readNat _).map _ = _
              rw [hk]
              rfl
          | [] => cases h
          | _ :: _ :: _ => cases h

theorem OneResponse.read (h : OneResponse bs) :
    ∃ body, ∀ rest, readResponse (bs ++ rest) = some (body.length, body ++ rest) := by
  obtain ⟨n, body, hread, rfl⟩ := h
  exact ⟨body, fun rest => readResponse_stable hread⟩

end read

/-! ### What a client has been sent -/

/-- The requests that are over: how often the connection was reset. -/
def resets : List Action → ℕ
  | [] => 0
  | .cleared _ :: l => resets l + 1
  | _ :: l => resets l

/-- All that the client was sent, where the request that `k` others went before is answered with the
file `files k`. -/
def clientStream (files : ℕ → ℕ → UInt8) : List Action → List UInt8
  | [] => []
  | .delivered (.buffer d) :: l => clientStream files l ++ d
  | .delivered (.file n) :: l => clientStream files l ++ filePart (files (resets l)) (fileSent (current l)) n
  | _ :: l => clientStream files l

/-- What the client was sent for the requests that are over, one after the other. -/
def overStreams (files : ℕ → ℕ → UInt8) : List Action → List (List UInt8)
  | [] => []
  | .cleared _ :: l => overStreams files l ++ [stream (files (resets l)) (current l)]
  | _ :: l => overStreams files l

section log

variable {files : ℕ → ℕ → UInt8} {l : List Action}

theorem overStreams_length : (overStreams files l).length = resets l := by
  induction l with
  | nil => rfl
  | cons a l ih =>
      cases a with
      | cleared b =>
          show (overStreams files l ++ [_]).length = resets l + 1
          rw [List.length_append, ih]
          rfl
      | _ => exact ih

/-- What was done for the current request is part of what was done. -/
theorem mem_of_current {x : Action} (h : x ∈ current l) : x ∈ l := by
  induction l with
  | nil => exact h
  | cons a l ih =>
      cases a with
      | cleared b => exact absurd h List.not_mem_nil
      | _ =>
          rcases List.mem_cons.mp h with rfl | h
          · exact List.mem_cons_self
          · exact List.mem_cons_of_mem _ (ih h)

/-- The stream is that of the requests that are over, and that of the current one. -/
theorem clientStream_eq :
    clientStream files l = (overStreams files l).flatten ++ stream (files (resets l)) (current l) := by
  induction l with
  | nil => rfl
  | cons a l ih =>
      cases a with
      | cleared b =>
          show clientStream files l = (overStreams files l ++ [_]).flatten ++ []
          rw [ih]
          simp
      | delivered o =>
          cases o with
          | buffer d =>
              show clientStream files l ++ d =
                (overStreams files l).flatten ++ (stream (files (resets l)) (current l) ++ d)
              rw [ih, List.append_assoc]
          | file n =>
              show clientStream files l ++ filePart (files (resets l)) (fileSent (current l)) n =
                (overStreams files l).flatten ++ (stream (files (resets l)) (current l) ++
                  filePart (files (resets l)) (fileSent (current l)) n)
              rw [ih, List.append_assoc]
      | _ => exact ih

/-- Each of the requests that are over has been sent one response, if none of them was proxied. -/
theorem Finished.over (files : ℕ → ℕ → UInt8) (h : Finished l) (hlocal : .matched true ∉ l) :
    ∀ m ∈ overStreams files l, OneResponse m := by
  induction l with
  | nil => exact fun m hm => absurd hm List.not_mem_nil
  | cons a l ih =>
      have hlocal' : .matched true ∉ l := fun hm => hlocal (List.mem_cons_of_mem _ hm)
      cases a with
      | cleared b =>
          intro m hm
          rcases List.mem_append.mp hm with hm | hm
          · exact ih h.2 hlocal' m hm
          · rw [List.mem_singleton.mp hm]
            exact (h.1 fun hm => hlocal' (mem_of_current hm)).2.2 _
      | _ => exact ih h hlocal'

/-- The bodies of responses. -/
theorem exists_bodies {ms : List (List UInt8)} (h : ∀ m ∈ ms, OneResponse m) : ∃ bodies,
    List.Forall₂ (fun m b => ∀ rest, readResponse (m ++ rest) = some (b.length, b ++ rest)) ms bodies := by
  induction ms with
  | nil => exact ⟨[], .nil⟩
  | cons m ms ih =>
      obtain ⟨b, hb⟩ := (h m List.mem_cons_self).read
      obtain ⟨bodies, hrest⟩ := ih fun x hx => h x (List.mem_cons_of_mem _ hx)
      exact ⟨b :: bodies, .cons hb hrest⟩

end log

/-- **A client reads one response for each of its requests**, in a run in which few pages are put among
the headers and no file is too long: read response by response, what it was sent on a connection whose
requests were not proxied is one response for each request that is over, whatever the files hold, and
behind them the beginning of one. -/
theorem client_decodes {timeout : ℤ} {locations : List Location} {v : Server} {a : ConnAddr}
    (h : Server.Reached (contractConfig timeout locations)
      (Server.Meets (contractConfig timeout locations) (Framable (contractConfig timeout locations))) v)
    (ha : v.Front a) (hlocal : .matched true ∉ v.log (v.conns a).r) (files : ℕ → ℕ → UInt8) :
    ∃ bodies tail, readStream readResponse (resets (v.log (v.conns a).r))
        (clientStream files (v.log (v.conns a).r)) = some (bodies, tail) ∧
      bodies.length = resets (v.log (v.conns a).r) ∧ ∃ rest, OneResponse (tail ++ rest) := by
  have hs := Server.Reached.kept (kept_single timeout locations) (fun _ => single_init) h a ha
  have hover : Finished (v.log (v.conns a).r) := hs.log
  obtain ⟨bodies, hbodies⟩ := exists_bodies (hover.over files hlocal)
  have hlen := hbodies.length_eq
  have hread := readStream_messages hbodies
    (stream (files (resets (v.log (v.conns a).r))) (current (v.log (v.conns a).r)))
  rw [← clientStream_eq, overStreams_length] at hread
  rw [overStreams_length] at hlen
  exact ⟨bodies, _, hread, hlen.symm, (hs.begun fun hm => hlocal (mem_of_current hm)).2.2 _⟩

/-- Two files are asked for on one connection; the second is sent in part. -/
def twoFilesRun : List Label :=
  fileRun (bytes "GET /i.html HTTP/1.1\r\n\r\n") ++
  Server.single 0 0 false { dateEnv with sends := [.sent 2048], files := [.sent 3, .sent 0] } ++
  Server.single 0 0 true
    { dateEnv with recvs := [.got (bytes "GET /j.html HTTP/1.1\r\n\r\n")], resource := fun _ => .file 9 4 } ++
  Server.single 0 0 false { dateEnv with sends := [.sent 2048], files := [.sent 2] }

theorem client_decodes_two :
    ∃ v, exec (Server.step (contractConfig 60 [⟨false, bytes "/"⟩])) Server.boot twoFilesRun = some v ∧
      resets (v.log (v.conns 0).r) = 1 ∧ ∀ files, ∃ bodies tail,
        readStream readResponse 1 (clientStream files (v.log (v.conns 0).r)) = some (bodies, tail) ∧
        bodies.length = 1 ∧ ∃ rest, OneResponse (tail ++ rest) := by
  have hrun : (exec (Server.step (contractConfig 60 [⟨false, bytes "/"⟩])) Server.boot twoFilesRun).any
      (fun v => decide (v.Front 0 ∧ .matched true ∉ v.log (v.conns 0).r ∧
        resets (v.log (v.conns 0).r) = 1)) := by
    decide +kernel
  obtain ⟨v, hv, hend⟩ := exists_of_any hrun
  obtain ⟨hfront, hlocal, hone⟩ := of_decide_eq_true hend
  have hreach := Reach.exec (.start Server.boot_init)
    (show Transition.Along _ (Server.Meets (contractConfig 60 [⟨false, bytes "/"⟩])
      (Framable (contractConfig 60 [⟨false, bytes "/"⟩]))) _ twoFilesRun by decide +kernel) hv
  refine ⟨v, hv, hone, fun files => ?_⟩
  rw [← hone]
  exact client_decodes hreach hfront hlocal files

end SyServer
