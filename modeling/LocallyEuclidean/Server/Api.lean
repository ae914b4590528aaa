import LocallyEuclidean.Storage.Files

/-! `server::api` and `server::explore`: the request handlers.
A body is the list of what its stream yields: data frames, or an error. -/

namespace LocallyEuclidean.Server
open Interact Postgres Storage

inductive ApiError where
  | bucketDoesNotExist (name : String)
  | invalidBucketName (name : String)
  | fileDoesNotExist (name : String)
  | invalidFileName (name : String)
  | fileExistsWithConflictingContent
  | internalError (error : BoxError)
  deriving DecidableEq, Repr

inductive StatusCode where
  | ok
  | badRequest
  | notFound
  | conflict
  | internalServerError
  deriving DecidableEq, Repr

namespace ApiError

def statusCode : ApiError → StatusCode
  | .bucketDoesNotExist _ => .notFound
  | .invalidBucketName _ => .badRequest
  | .fileDoesNotExist _ => .notFound
  | .invalidFileName _ => .badRequest
  | .fileExistsWithConflictingContent => .conflict
  | .internalError _ => .internalServerError

def fromBucketOpenError (name : String) : FileOpenError → ApiError
  | .doesNotExist => .bucketDoesNotExist name
  | .invalidName => .invalidBucketName name
  | e => .internalError (.fileOpen e)

def fromBucketFileOpenError (name : String) : FileOpenError → ApiError
  | .doesNotExist => .fileDoesNotExist name
  | .invalidName => .invalidFileName name
  | e => .internalError (.fileOpen e)

end ApiError

/-- What `into_data_stream` yields, in order; nothing is read past an error. -/
abbrev DataStream := List (Except Unit Bytes)

/-- A body whose stream does not fail, cut into the given frames. -/
def frames (body : List Bytes) : DataStream := body.map .ok

inductive RangeMatch where
  | isMatch
  | lengthMismatch
  | dataMismatch
  deriving DecidableEq, Repr

/-- The loop of `check_range_matches`: frame by frame, then a probe for more. -/
def matchFrames (file : BlobHandle) : DataStream → DbProg BoxError RangeMatch
  | .ok data :: rest => do
    match ← (file.readExact data.length).attempt with
    | .error .unexpectedEof => return .lengthMismatch
    | .error e => .err (.io e)
    | .ok buf => if buf ≠ data then return .dataMismatch else matchFrames file rest
  | .error () :: _ => .err .body
  | [] => do
    match ← file.readU8.attempt with
    | .ok _ => return .lengthMismatch
    | .error .unexpectedEof => return .isMatch
    | .error e => .err (.io e)

/-- Checks that a range of data from a stream matches in length and content. The
seek might go off the end of the file. -/
def checkRangeMatches (stream : DataStream) (startPosition : ℕ) (file : BlobHandle) :
    DbProg BoxError RangeMatch := do
  let _ ← (file.seek (.start startPosition)).mapErr .io
  matchFrames file stream

/-- The upload loop that PUT and POST share. -/
def appendFrames (file : PostgresFileHandle) : DataStream → DbProg BoxError Unit
  | .ok data :: rest => do
    file.append data
    appendFrames file rest
  | .error () :: _ => .err .body
  | [] => .ret ()

/-- PUT `/v0/write/:filename?bucketName=:bucketName` -/
def putWriteFilename (bucketName filename : String) (request : DataStream) (now : DateTime) :
    DbProg ApiError Unit := do
  let bucket ← (PostgresBackend.bucket bucketName).mapErr (.fromBucketOpenError bucketName)
  match ← (bucket.createFile filename now).attempt with
  | .ok file => do
    (appendFrames file request).mapErr .internalError
    file.commit.mapErr .internalError
  | .error .fileExists => do
    let existingFile ← (bucket.file filename).mapErr fun e => .internalError (.fileOpen e)
    match ← (checkRangeMatches request 0 existingFile.blob).mapErr .internalError with
    | .isMatch => return ()
    | _ => .err .fileExistsWithConflictingContent
  | .error e => .err (.internalError (.fileCreate e))

/-- POST `/v0/append/:filename?bucketName=:bucketName&writeOffset=:writeOffset` -/
def postAppendFilename (bucketName filename : String) (writeOffset : ℕ) (request : DataStream) :
    DbProg ApiError Unit := do
  let bucket ← (PostgresBackend.bucket bucketName).mapErr (.fromBucketOpenError bucketName)
  let file ← (bucket.file filename).mapErr (.fromBucketFileOpenError filename)
  let size ← (file.blob.seek (.fromEnd 0)).mapErr fun e => .internalError (.io e)
  if writeOffset ≤ size then
    match ← (checkRangeMatches request writeOffset file.blob).mapErr .internalError with
    | .isMatch => return ()
    | .lengthMismatch => .err .fileExistsWithConflictingContent
    | .dataMismatch => .err .fileExistsWithConflictingContent
  else do
    (appendFrames file request).mapErr .internalError
    file.commit.mapErr .internalError

/-- How the body of a download ends: at the end of the file, because the client
asks for no more, or in an error that cuts the connection. -/
inductive StreamEnd where
  | eof
  | stopped
  | error (error : IoError)
  deriving DecidableEq, Repr

structure Response where
  contentLength : ℕ
  contentType : String
  lastModified : Timestamp
  body : List Bytes
  bodyEnd : StreamEnd
  deriving DecidableEq, Repr

/-- `ReaderStream` over the handle: each poll offers some room, which depends on
what is left of its buffer, and an empty read ends the stream. -/
def readerStream (file : BlobHandle) : List ℕ+ → DbProg ApiError (List Bytes × StreamEnd)
  | [] => .ret ([], .stopped)
  | room :: rooms => do
    match ← (file.read room).attempt with
    | .error e => return ([], .error e)
    | .ok data =>
      if data = [] then return ([], .eof)
      else do
        let (chunks, bodyEnd) ← readerStream file rooms
        return (data :: chunks, bodyEnd)

/-- GET `/explore/:bucketName/:filename` -/
def getExplore (bucketName filename : String) (rooms : List ℕ+) : DbProg ApiError Response := do
  let bucket ← (PostgresBackend.bucket bucketName).mapErr (.fromBucketOpenError bucketName)
  let file ← (bucket.file filename).mapErr (.fromBucketFileOpenError filename)
  let length ← (file.blob.seek (.fromEnd 0)).mapErr fun e => .internalError (.io e)
  let _ ← (file.blob.seek (.start 0)).mapErr fun e => .internalError (.io e)
  let lastModified ← file.metadata.mapErr .internalError
  let (body, bodyEnd) ← readerStream file.blob rooms
  return ⟨length, "application/octet-stream", lastModified, body, bodyEnd⟩

/-- GET `/v1/logs/get/:filename` -/
def getBuck2Log (filename : String) (rooms : List ℕ+) : DbProg ApiError Response :=
  getExplore "buck2_logs" ("flat/" ++ filename ++ ".pb.zst") rooms

end LocallyEuclidean.Server
