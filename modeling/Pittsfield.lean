import Pittsfield.Machine.Weakening
import Pittsfield.Libc.Realloc
import Pittsfield.Libc.Move
import Pittsfield.Libc.Bsearch
import Pittsfield.Libc.Rand
import Pittsfield.Libc.Search
import Pittsfield.Libc.Strtol
import Pittsfield.Libc.Tokens
import Pittsfield.Loader.Main
import Pittsfield.Offline.Containment
import Pittsfield.Offline.StackRuns
import Pittsfield.Offline.Stores
import Pittsfield.Offline.Tiling
import Pittsfield.Offline.Transfers
import Pittsfield.Region.Masks
import Pittsfield.Rewrite.Estimates
import Pittsfield.Rewrite.States
import Pittsfield.Rewrite.Checked
import Pittsfield.Rewrite.MainText
import Pittsfield.StringOps.Files
import Pittsfield.Wrappers.Streams
import Pittsfield.Offline.Acceptance
import Pittsfield.Rewrite.Checked
