import GitlstreeFS.Base64.Foreign
import GitlstreeFS.Cache.Concurrent
import GitlstreeFS.Cache.Lives
import GitlstreeFS.Cache.Release
import GitlstreeFS.Cache.Stable
import GitlstreeFS.ConcurrencyLimit
import GitlstreeFS.Container.Mount
import GitlstreeFS.Container.Parents
import GitlstreeFS.Cowfs.Attributes
import GitlstreeFS.Cowfs.Contention
import GitlstreeFS.Cowfs.GcTree
import GitlstreeFS.Cowfs.Guard
import GitlstreeFS.Cowfs.Isolation
import GitlstreeFS.Cowfs.Leftovers
import GitlstreeFS.Cowfs.Orphan
import GitlstreeFS.Cowfs.Parallel
import GitlstreeFS.Cowfs.Serving
import GitlstreeFS.Cowfs.Startup
import GitlstreeFS.Cowfs.Transparency
import GitlstreeFS.Cowfs.Unlink
import GitlstreeFS.Cpio.Archive
import GitlstreeFS.Cpio.Hardlink
import GitlstreeFS.Cpio.Inside
import GitlstreeFS.Cpio.Mount
import GitlstreeFS.Cpio.Order
import GitlstreeFS.Effect.Descent
import GitlstreeFS.Effect.Marked
import GitlstreeFS.Effect.RelyGuarantee
import GitlstreeFS.Ext2.Limit
import GitlstreeFS.Ext2.Mount
import GitlstreeFS.Ext2.Sparse
import GitlstreeFS.Ext2.Terminates
import GitlstreeFS.FileCopy
import GitlstreeFS.FileLock
import GitlstreeFS.GitCatFile.Finishes
import GitlstreeFS.Gitfs.Mount
import GitlstreeFS.Githubfs.Handled
import GitlstreeFS.Githubfs.Handles
import GitlstreeFS.Githubfs.Integers
import GitlstreeFS.Githubfs.Recursion
import GitlstreeFS.Githubfs.Terminates
import GitlstreeFS.Gitlstree.Handles
import GitlstreeFS.Gitlstree.Head
import GitlstreeFS.Gitlstree.Listing
import GitlstreeFS.Gitlstree.Mount
import GitlstreeFS.GitTree
import GitlstreeFS.Globfs.Handler
import GitlstreeFS.Jjson.Accepts
import GitlstreeFS.Jjson.Agree
import GitlstreeFS.Jjson.Escapes
import GitlstreeFS.Jjson.Nested
import GitlstreeFS.Jjson.Progress
import GitlstreeFS.Jjson.Whole
import GitlstreeFS.LinkFiles
import GitlstreeFS.MemoryFiles
import GitlstreeFS.Ninjafs.Mount
import GitlstreeFS.Ninjafs.Parallel
import GitlstreeFS.Ninjafs.Target
import GitlstreeFS.Owned
import GitlstreeFS.Popen
import GitlstreeFS.SameTree
import GitlstreeFS.ScopedFd
import GitlstreeFS.SplitJoin
import GitlstreeFS.StatsHolder
