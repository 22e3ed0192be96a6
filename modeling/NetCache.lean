import NetCache.Cache.Copying
import NetCache.Cache.Counters
import NetCache.Cache.Demand
import NetCache.Cache.Growth
import NetCache.Cache.Hash
import NetCache.Cache.Rehash
import NetCache.Client.Coherence
import NetCache.Client.Replies
import NetCache.Server.Connections
import NetCache.Server.Keys
import NetCache.Server.Truncation
